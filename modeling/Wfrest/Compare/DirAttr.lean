import Wfrest.Compare.Task

/-!
# Directory attributes

The loop over a list of directories that asks the operating system for their
attributes. It stands twice in the program, in the local reader of a compare task
(`thd_worker_dir_list_attr`) and in the executor that answers the other servers
(`thd_worker_task_dir_attr_list`), with the same body, which is `dirAttr` here.

What the system says is a parameter, `Os`: one answer for each entry of the list, so
that two entries for one path may see different answers.
-/

namespace Wfrest

/-- How the code stops short: a failed `DC_COMMON_ASSERT`, an exception of the JSON
library or of `std::stoi`, or a cast of a number that is no code. -/
inductive Fault where
  | panic
  | parseError
  | typeError
  | invalidArgument
  | outOfRange
  | noCode
  deriving DecidableEq, Repr

/-- `DC_COMMON_ASSERT` where nothing catches a fault. -/
def assertFault (b : Bool) : Except Fault Unit := if b then .ok () else .error .panic

/-! ### Codes as numbers -/

/-- The codes in the order of their values. -/
def dcCommonCodes : List DcCommonCode :=
  [.S_SUCCESS, .E_RETRY, .E_NOT_SUPPORT_FILE_TYPE, .E_NOT_IMPL, .E_NOT_FOUND, .E_ASSERT,
    .E_ARG_INVALID, .E_OS_ENV_NOT_FOUND, .E_OS_ENV_MEM, .E_OS_ENV_STAT, .E_OS_ENV_OPEN,
    .E_OS_ENV_READ, .E_OS_ENV_WRITE, .E_OS_ENV_UNLINK, .E_OS_ENV_GETPWUID, .E_OS_ENV_CHDIR,
    .E_OS_ENV_LOCALTIME, .E_DC_INTERNAL_NO_UUID, .E_DC_INTERNAL_NOT_JSON,
    .E_DC_INTERNAL_EMPTY_BODY, .E_DC_INTERNAL_NO_DIR_LIST, .E_DC_INTERNAL_UUID_NOT_EQUAL,
    .E_DC_CONTENT_DIR, .E_DC_CONTENT_RETRY, .E_DC_CONTENT_OVER, .E_DC_API_CTX_NOT_FOUND,
    .E_DC_API_CTX_NO_FREE, .E_DC_TASK_HAS_BEEN_CANCELED, .E_DC_TASK_MEM_VOPS_NOT_OVER,
    .E_DC_COMPARE_CONNECT, .E_DC_COMPARE_EXE_TASK_FAILED, .E_DC_COMMON_ERROR_END]

/-- `(dc_common_code_t)n` -/
def castCode (n : Int) : Except Fault DcCommonCode :=
  match dcCommonCodes.find? fun c => (c.toNat : Int) = n with
  | some c => .ok c
  | none => .error .noCode

/-- A code as a JSON number. -/
def codeJson (c : DcCommonCode) : Json := .num c.toNat

@[simp] theorem castCode_toNat (c : DcCommonCode) : castCode c.toNat = .ok c := by
  cases c <;> rfl

theorem codeJson_injective : Function.Injective codeJson := by
  intro c d h
  have hcast := castCode_toNat c
  rw [Json.num.inj h, castCode_toNat] at hcast
  exact (Except.ok.inj hcast).symm

/-! ### Attributes -/

/-- `dc_file_attr_t` -/
@[ext]
structure FileAttr where
  fSize : Int := -1
  fMode : Bytes := []
  fOwner : Bytes := []
  fLastUpdated : Bytes := []
  fCode : DcCommonCode := .S_SUCCESS
  deriving DecidableEq

/-- `dc_file_attr_t::compare` -/
def FileAttr.compare (std f : FileAttr) : Bool :=
  std.fCode = .S_SUCCESS ∧ f.fCode = .S_SUCCESS ∧ std.fSize = f.fSize ∧ std.fMode = f.fMode ∧
    std.fOwner = f.fOwner ∧ std.fLastUpdated = f.fLastUpdated

/-! ### The operating system -/

/-- `getpwuid`: a name, or null with the value of `errno`. -/
inductive Passwd where
  | name (pwName : Bytes)
  | null (errno : Nat)

/-- What `stat` and the calls after it say about one path. `lastUpdated` is the text
that `strftime` makes of `localtime`, `none` when that is null. -/
structure PathStat where
  isDir : Bool
  stMode : Nat
  pwd : Passwd
  lastUpdated : Option Bytes

/-- The operating system, as the loop over the directories sees it. -/
structure Os where
  /-- `chdir` succeeds. -/
  chdir : Bytes → Bool
  /-- The answer for the entry at an index of the list; `none` when `stat` fails. -/
  stat : Nat → Bytes → Option PathStat

/-- `snprintf("%o")` -/
def octal (n : Nat) : Bytes := (Nat.toDigits 8 n).map fun c => c.toNat.toUInt8

/-! ### The loop -/

/-- The end of the body: the time of the last update. -/
def dirAttrTime (attr : FileAttr) : Option Bytes → FileAttr
  | none => { attr with fCode := .E_OS_ENV_LOCALTIME }
  | some time => { attr with fLastUpdated := time }

/-- The body of the loop. What is set before an error stays set. -/
def dirAttr : Option PathStat → Except Fault FileAttr
  | none => .ok { fCode := .E_OS_ENV_STAT }
  | some st => do
    assertFault st.isDir
    let attr : FileAttr := { fMode := octal (st.stMode &&& 0o777) }
    match st.pwd with
    | .name pwName => return dirAttrTime { attr with fOwner := pwName } st.lastUpdated
    | .null errno =>
      if errno = 0 then return dirAttrTime { attr with fOwner := ascii "0" } st.lastUpdated
      else return { attr with fCode := .E_OS_ENV_GETPWUID }

/-- The loop, from index `i` on. -/
def dirListAttr (os : Os) (i : Nat) : List Bytes → Except Fault (List FileAttr)
  | [] => .ok []
  | dir :: dirs => do
    let attr ← dirAttr (os.stat i (cStr dir))
    let attrs ← dirListAttr os (i + 1) dirs
    return attr :: attrs

/-- `dc_content_local_t::thd_worker_dir_list_attr`: what is appended to
`dir_attr_list_`. The code is always `S_SUCCESS`. -/
def thdWorkerDirListAttr (os : Os) (dirList : List Bytes) : Except Fault (List FileAttr) :=
  dirListAttr os 0 dirList

theorem assertFault_eq_ok {b : Bool} {u : Unit} : assertFault b = .ok u ↔ b = true := by
  cases b <;> simp [assertFault]

theorem assertFault_of {p : Prop} [Decidable p] (h : p) : assertFault p = .ok () :=
  assertFault_eq_ok.mpr (decide_eq_true h)

theorem assertFault_of_not {p : Prop} [Decidable p] (h : ¬ p) : assertFault p = .error .panic :=
  if_neg (by simpa using h)

/-- Every entry gets its attributes when each path that `stat` finds is a directory. -/
theorem dirAttr_isOk_iff {o : Option PathStat} :
    (∃ attr, dirAttr o = .ok attr) ↔ ∀ st, o = some st → st.isDir = true := by
  cases o with
  | none => simp [dirAttr]
  | some st =>
    constructor
    · rintro ⟨attr, h⟩ st' hst
      cases hst
      obtain ⟨u, hdir, -⟩ := bind_eq_ok.mp h
      exact assertFault_eq_ok.mp hdir
    · intro h
      have hdir : assertFault st.isDir = .ok () := assertFault_eq_ok.mpr (h st rfl)
      cases hpwd : st.pwd with
      -- no answer of `getpwuid` stops it
      | name pwName => exact ⟨_, by simp only [dirAttr, hdir, hpwd]; rfl⟩
      | null errno =>
        by_cases herrno : errno = 0
        · exact ⟨_, by simp only [dirAttr, hdir, hpwd, if_pos herrno]; rfl⟩
        · exact ⟨_, by simp only [dirAttr, hdir, hpwd, if_neg herrno]; rfl⟩

/-- The loop ends when each path that `stat` finds is a directory. -/
theorem dirListAttr_isOk_iff {os : Os} {i : Nat} {dirs : List Bytes} :
    (∃ attrs, dirListAttr os i dirs = .ok attrs) ↔
      ∀ k, ∀ hk : k < dirs.length, ∀ st,
        os.stat (i + k) (cStr dirs[k]) = some st → st.isDir = true := by
  induction dirs generalizing i with
  | nil => exact ⟨fun _ k hk => absurd hk (Nat.not_lt_zero k), fun _ => ⟨[], rfl⟩⟩
  | cons dir dirs ih =>
    constructor
    · rintro ⟨attrs, h⟩ k hk st hst
      obtain ⟨attr, hattr, h⟩ := bind_eq_ok.mp h
      obtain ⟨rest, hrest, -⟩ := bind_eq_ok.mp h
      cases k with
      | zero => exact dirAttr_isOk_iff.mp ⟨attr, hattr⟩ st hst
      | succ k =>
        -- entry `k + 1` is entry `k` of the rest, whose loop starts one number later
        refine ih.mp ⟨rest, hrest⟩ k (Nat.lt_of_succ_lt_succ hk) st ?_
        rw [Nat.add_right_comm i 1 k]
        exact hst
    · intro h
      obtain ⟨attr, hattr⟩ := dirAttr_isOk_iff.mpr fun st hst => h 0 (Nat.succ_pos _) st hst
      obtain ⟨rest, hrest⟩ := ih.mpr fun k hk st hst => by
        refine h (k + 1) (Nat.succ_lt_succ hk) st ?_
        rw [Nat.add_right_comm i 1 k] at hst
        exact hst
      exact ⟨attr :: rest, bind_eq_ok.mpr ⟨attr, hattr, bind_eq_ok.mpr ⟨rest, hrest, rfl⟩⟩⟩

private theorem fSize_dirAttrTime (attr : FileAttr) (time : Option Bytes) :
    (dirAttrTime attr time).fSize = attr.fSize := by
  cases time <;> rfl

/-- A directory has no size. -/
theorem fSize_dirAttr {o : Option PathStat} {attr : FileAttr} (h : dirAttr o = .ok attr) :
    attr.fSize = -1 := by
  cases o with
  | none =>
    obtain rfl := Except.ok.inj h
    rfl
  | some st =>
    obtain ⟨u, -, h⟩ := bind_eq_ok.mp h
    cases hpwd : st.pwd with
    | name pwName =>
      rw [hpwd] at h
      obtain rfl := Except.ok.inj h
      exact fSize_dirAttrTime _ _
    | null errno =>
      rw [hpwd] at h
      by_cases herrno : errno = 0
      · simp only [if_pos herrno] at h
        obtain rfl := Except.ok.inj h
        exact fSize_dirAttrTime _ _
      · simp only [if_neg herrno] at h
        obtain rfl := Except.ok.inj h
        rfl

/-- **One record per directory**, the size never set. -/
theorem dirListAttr_spec {os : Os} {i : Nat} {dirs : List Bytes} {attrs : List FileAttr}
    (h : dirListAttr os i dirs = .ok attrs) :
    attrs.length = dirs.length ∧ ∀ attr ∈ attrs, attr.fSize = -1 := by
  induction dirs generalizing i attrs with
  | nil =>
    obtain rfl := Except.ok.inj h
    exact ⟨rfl, fun _ hmem => by cases hmem⟩
  | cons dir dirs ih =>
    obtain ⟨attr, hattr, h⟩ := bind_eq_ok.mp h
    obtain ⟨rest, hrest, h⟩ := bind_eq_ok.mp h
    obtain rfl := Except.ok.inj h
    obtain ⟨hlen, hsize⟩ := ih hrest
    refine ⟨congrArg (· + 1) hlen, fun a ha => ?_⟩
    rcases List.mem_cons.mp ha with rfl | ha
    · exact fSize_dirAttr hattr
    · exact hsize a ha

end Wfrest
