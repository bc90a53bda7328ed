import Wfrest.Compare.Batches

/-!
# What an entry of the report says about its file

An entry of `diffs` has a `name` and a `dir`. In the example report the latter is the whole
path of the directory, such as `/A/B`. `get_parent_dir` cuts it down to its last component, as
soon as the walk is below the directory to compare (`dirAndName_readLoop`).

So `dir` is the whole path as long as nothing is reported more than one directory down, and
`dir` and `name` tell the entries apart as long as no two directories with the same name have
entries with the same name (`identified_iff`).
-/

namespace Wfrest

/-! ### Where the entries are -/

namespace Listing

/-- What a walk of this stream reports, in order: the names of the directories that an entry is
in, from the directory to compare on, and its own. -/
def located : Listing → List Bytes → List (List Bytes × Bytes)
  | done, _ => []
  | link rest, dirs => rest.located dirs
  | dir name opens sub rest, dirs =>
    if name = [dot] ∨ name = [dot, dot] then rest.located dirs
    else
      (dirs, name) :: ((if opens then sub.located (dirs ++ [name]) else []) ++ rest.located dirs)
  | other _ none _, _ => []
  | other _ (some false) rest, dirs => rest.located dirs
  | other name (some true) rest, dirs => (dirs, name) :: rest.located dirs

end Listing

/-- A name that a directory can have an entry under. -/
def IsFileName (name : Bytes) : Prop := name ≠ [] ∧ slash ∉ name

instance (name : Bytes) : Decidable (IsFileName name) := inferInstanceAs (Decidable (_ ∧ _))

/-- The path below the directory to compare. -/
def below (dirs : List Bytes) : Bytes := dirs.flatMap (slash :: ·)

/-- The whole path as a `dir`. The directory to compare itself is `.` in the report. -/
def wholeDir (dirs : List Bytes) : Bytes := if dirs = [] then [dot] else below dirs

/-- The last component only. -/
def lastDir (dirs : List Bytes) : Bytes :=
  match dirs.getLast? with
  | none => [dot]
  | some name => slash :: name

theorem below_concat (dirs : List Bytes) (name : Bytes) :
    below (dirs ++ [name]) = below dirs ++ slash :: name := by
  unfold below
  rw [List.flatMap_append, List.flatMap_singleton]

theorem lastDir_concat (dirs : List Bytes) (name : Bytes) :
    lastDir (dirs ++ [name]) = slash :: name := by
  unfold lastDir
  rw [List.getLast?_concat]

/-- Behind a slash everything is kept. -/
theorem rtakeWhile_slash (l : Bytes) {name : Bytes} (hname : slash ∉ name) :
    (l ++ slash :: name).rtakeWhile (· ≠ slash) = name := by
  induction name using List.reverseRecOn with
  | nil => exact List.rtakeWhile_concat_neg _ _ _ (by simp)
  | append_singleton name b ih =>
    have hne : b ≠ slash := by
      rintro rfl
      exact hname (List.mem_append_right _ List.mem_cons_self)
    rw [← List.cons_append, ← List.append_assoc, List.rtakeWhile_concat_pos _ _ _ (by simpa)]
    rw [ih fun hmem => hname (List.mem_append_left _ hmem)]

/-- Below the directory to compare **`get_parent_dir`** keeps the last component. -/
theorem getParentDir_slash (path : Bytes) {name : Bytes} (hname : IsFileName name) {depth : Nat}
    (hdepth : depth ≠ 0) : getParentDir depth (path ++ slash :: name) = slash :: name := by
  obtain ⟨hne, hslash⟩ := hname
  have hlast : (path ++ slash :: name).getLast? ≠ some slash := by
    -- the last byte of the path is that of the name
    obtain ⟨front, b, rfl⟩ := List.eq_nil_or_concat' name |>.resolve_left hne
    rw [← List.cons_append, ← List.append_assoc, List.getLast?_concat]
    intro heq
    exact hslash (Option.some.inj heq ▸ List.mem_append_right _ List.mem_cons_self)
  -- the path does not end with a slash, so nothing is popped
  have hmem : slash ∈ path ++ slash :: name := List.mem_append_right _ List.mem_cons_self
  unfold getParentDir
  rw [if_neg hdepth, if_neg hlast]
  dsimp only
  rw [if_pos hmem, rtakeWhile_slash path hslash]

theorem getParentDir_below (root : Bytes) {dirs : List Bytes}
    (hdirs : ∀ name ∈ dirs, IsFileName name) :
    getParentDir dirs.length (root ++ below dirs) = lastDir dirs := by
  cases dirs using List.reverseRecOn with
  | nil => rfl
  | append_singleton dirs name =>
    have hname := hdirs name (List.mem_append_right _ List.mem_cons_self)
    have hlen : (dirs ++ [name]).length ≠ 0 := by simp
    rw [below_concat, ← List.append_assoc, getParentDir_slash _ hname hlen, lastDir_concat]

/-! ### What the report says -/

/-- The members `dir` and `name`. -/
def dirAndName (json : Json) : Option Json × Option Json := (json.get? "dir", json.get? "name")

/-- What a walk writes into them. -/
def reported (e : List Bytes × Bytes) : Option Json × Option Json :=
  (some (.str (lastDir e.1)), some (.str e.2))

theorem dirAndName_dirEntry (name dir : Bytes) :
    dirAndName (dirEntry name dir) = (some (.str dir), some (.str name)) := rfl

theorem dirAndName_fileEntry (name dir path : Bytes) :
    dirAndName (fileEntry name dir path) = (some (.str dir), some (.str name)) := rfl

theorem dirAndName_set_servers (json value : Json) :
    dirAndName (json.set "servers" value) = dirAndName json := by
  unfold dirAndName
  rw [Json.get?_set, Json.get?_set, if_neg (by decide), if_neg (by decide)]

theorem map_modify {α β : Type} {f : α → α} {g : α → β} (hg : ∀ a, g (f a) = g a) (l : List α)
    (i : Nat) : (l.modify i f).map g = l.map g := by
  refine List.ext_getElem? fun j => ?_
  rw [List.getElem?_map, List.getElem?_map, List.getElem?_modify]
  cases l[j]? with
  | none => rfl
  | some a =>
    change some (g (if i = j then f a else a)) = some (g a)
    split
    · rw [hg]
    · rfl

/-- The `servers` of an entry are not part of it. -/
theorem dirAndName_fillServers {stdIdx : Int} {rs : List ServerResult} {i : Nat}
    {dirQ : List (Bytes × Int)} {diffs diffs' : List Json}
    (h : fillServers stdIdx rs i dirQ diffs = some diffs') :
    diffs'.map dirAndName = diffs.map dirAndName := by
  induction dirQ generalizing i diffs with
  | nil => rw [Option.some.inj h]
  | cons e dirQ ih =>
    -- an entry is modified by its member `servers` only
    obtain ⟨servers, -, h⟩ := Option.bind_eq_some_iff.mp h
    obtain ⟨diffs₁, hset, h⟩ := Option.bind_eq_some_iff.mp h
    rw [ih h]
    unfold setServers at hset
    split at hset
    · rw [← Option.some.inj hset]
      exact map_modify (fun json => dirAndName_set_servers json _) diffs _
    · cases hset

theorem dirAndName_singleItemDir {full : Nat → Bool} {job : CompareJob} {path : Bytes}
    {jsonIdx : Int} {w w' : Walk}
    (h : exeSqlJobForSingleItemDir full job path jsonIdx w = some w') :
    w'.diffs.map dirAndName = w.diffs.map dirAndName := by
  unfold exeSqlJobForSingleItemDir at h
  dsimp only at h
  split at h
  -- the queue is sent out, or gets longer
  · unfold exeSqlJobForSingleItemDir1 at h
    split at h
    · rw [← Option.some.inj h]
    · obtain ⟨rs, -, h⟩ := Option.bind_eq_some_iff.mp h
      obtain ⟨diffs, hfill, h⟩ := Option.bind_eq_some_iff.mp h
      rw [← Option.some.inj h]
      exact dirAndName_fillServers hfill
  · rw [← Option.some.inj h]

theorem dirAndName_emplaceBack (w : Walk) (json : Json) :
    (w.emplaceBack json).diffs.map dirAndName = w.diffs.map dirAndName ++ [dirAndName json] :=
  List.map_append

/-- **The report of a walk.** An entry has its own name, and of the directories that it is in
the last one. -/
theorem dirAndName_readLoop {full : Nat → Bool} {job : CompareJob} {listing : Listing}
    {root : Bytes} {dirs : List Bytes} {w w' : Walk} {ret : DcCommonCode}
    (hdirs : ∀ name ∈ dirs, IsFileName name)
    (hnames : ∀ e ∈ listing.located dirs, IsFileName e.2)
    (h : readLoop full job listing (root ++ below dirs) dirs.length w = some (ret, w')) :
    w'.diffs.map dirAndName = w.diffs.map dirAndName ++ (listing.located dirs).map reported := by
  induction listing generalizing dirs w ret w' with
  | done =>
    rw [← (Prod.mk.inj (Option.some.inj h)).2]
    exact (List.append_nil _).symm
  | link rest ih => exact ih hdirs hnames h
  | dir name opens sub rest ihsub ihrest =>
    by_cases hdots : name = [dot] ∨ name = [dot, dot]
    · rw [readLoop_dots hdots] at h
      have hlocated : (Listing.dir name opens sub rest).located dirs = rest.located dirs :=
        if_pos hdots
      rw [hlocated] at hnames ⊢
      exact ihrest hdirs hnames h
    · have hlocated : (Listing.dir name opens sub rest).located dirs = (dirs, name) ::
          ((if opens then sub.located (dirs ++ [name]) else []) ++ rest.located dirs) :=
        if_neg hdots
      rw [hlocated] at hnames ⊢
      obtain ⟨hname, hnames⟩ := List.forall_mem_cons.mp hnames
      obtain ⟨hsubnames, hrestnames⟩ := List.forall_mem_append.mp hnames
      obtain ⟨json, w₁, r, rfl, hqueue, hsub, h⟩ := readLoop_dir hdots h
      -- the entry of the directory itself
      have h₁ : w₁.diffs.map dirAndName = w.diffs.map dirAndName ++ [reported (dirs, name)] := by
        rw [dirAndName_singleItemDir hqueue, dirAndName_emplaceBack, dirAndName_dirEntry,
          getParentDir_below root hdirs]
        rfl
      -- what is below it, one directory deeper
      have h₂ : r.2.diffs.map dirAndName = w₁.diffs.map dirAndName ++
          (if opens then sub.located (dirs ++ [name]) else []).map reported := by
        cases opens with
        | false =>
          rw [← Option.some.inj hsub]
          exact (List.append_nil _).symm
        | true =>
          have hpath : root ++ below dirs ++ slash :: name = root ++ below (dirs ++ [name]) := by
            rw [below_concat, List.append_assoc]
          have hdepth : dirs.length + 1 = (dirs ++ [name]).length := by
            rw [List.length_append, List.length_singleton]
          have hloop : readLoop full job sub (root ++ below (dirs ++ [name]))
              (dirs ++ [name]).length w₁ = some (r.1, r.2) := hpath ▸ hdepth ▸ hsub
          refine ihsub ?_ hsubnames hloop
          exact List.forall_mem_append.mpr ⟨hdirs, List.forall_mem_singleton.mpr hname⟩
      rw [ihrest hdirs hrestnames h, h₂, h₁, List.map_cons, List.map_append, List.append_assoc,
        List.append_assoc, List.singleton_append]
  | other name isReg rest ih =>
    cases isReg with
    | none =>
      rw [← (Prod.mk.inj (Option.some.inj h)).2]
      exact (List.append_nil _).symm
    | some isReg =>
      cases isReg with
      | false => exact ih hdirs hnames h
      | true =>
        obtain ⟨-, hrestnames⟩ := List.forall_mem_cons.mp hnames
        rw [ih hdirs hrestnames h, dirAndName_emplaceBack, dirAndName_fileEntry,
          getParentDir_below root hdirs, List.append_assoc]
        rfl

/-! ### Telling the entries apart -/

/-- `dir` and `name` tell the directories and files of a tree apart. -/
def ToldApart (listing : Listing) (diffs : List Json) : Prop :=
  ∀ p ∈ (listing.located []).zip diffs, ∀ q ∈ (listing.located []).zip diffs,
    p.1 ≠ q.1 → dirAndName p.2 ≠ dirAndName q.2

/-- Every directory and every file of a tree has its entry, which says where it is. -/
structure Identified (listing : Listing) (diffs : List Json) : Prop where
  length : diffs.length = (listing.located []).length
  /-- `dir` is the whole path. -/
  whole : ∀ p ∈ (listing.located []).zip diffs,
    dirAndName p.2 = (some (.str (wholeDir p.1.1)), some (.str p.1.2))
  apart : ToldApart listing diffs

/-- The last component is the whole path at the first level, and the directory to compare has
its own `dir`. -/
theorem lastDir_eq_wholeDir_iff (dirs : List Bytes) :
    lastDir dirs = wholeDir dirs ↔ dirs.length < 2 := by
  cases dirs using List.reverseRecOn with
  | nil => exact iff_of_true rfl Nat.two_pos
  | append_singleton dirs name =>
    have hne : dirs ++ [name] ≠ [] := by simp
    rw [lastDir_concat, wholeDir, if_neg hne, below_concat]
    cases dirs with
    | nil => exact iff_of_true rfl Nat.one_lt_two
    | cons d dirs =>
      refine iff_of_false (fun heq => ?_) (by simp)
      -- the components before it have a length
      have hlen := congrArg List.length heq
      have hpos : 0 < (below (d :: dirs)).length := by
        unfold below
        rw [List.flatMap_cons, List.cons_append]
        exact Nat.succ_pos _
      rw [List.length_append] at hlen
      omega

theorem lastDir_inj {dirs dirs' : List Bytes} :
    lastDir dirs = lastDir dirs' ↔ dirs.getLast? = dirs'.getLast? := by
  unfold lastDir
  cases hlast : dirs.getLast? with
  | none =>
    cases hlast' : dirs'.getLast? with
    | none => exact iff_of_true rfl rfl
    | some name => exact iff_of_false (fun heq => by cases heq) nofun
  | some name =>
    cases hlast' : dirs'.getLast? with
    | none => exact iff_of_false (fun heq => by cases heq) nofun
    | some name' =>
      constructor
      · intro heq
        exact congrArg some (List.cons.inj heq).2
      · intro heq
        rw [Option.some.inj heq]

section Report

variable {listing : Listing} {diffs : List Json}

/-- The entry at a place reports what is at that place. -/
theorem dirAndName_of_mem_zip (h : diffs.map dirAndName = (listing.located []).map reported)
    {p : (List Bytes × Bytes) × Json} (hp : p ∈ (listing.located []).zip diffs) :
    dirAndName p.2 = reported p.1 := by
  obtain ⟨i, hi⟩ := List.mem_iff_getElem?.mp hp
  obtain ⟨hloc, hdiff⟩ := List.getElem?_zip_eq_some.mp hi
  have hmap := congrArg (fun l => l[i]?) h
  simp only [List.getElem?_map, hloc, hdiff, Option.map_some] at hmap
  exact Option.some.inj hmap

theorem length_of_map_eq (h : diffs.map dirAndName = (listing.located []).map reported) :
    diffs.length = (listing.located []).length := by
  rw [← List.length_map dirAndName, h, List.length_map]

/-- Everything has an entry. -/
theorem exists_mem_zip (h : diffs.map dirAndName = (listing.located []).map reported)
    {e : List Bytes × Bytes} (he : e ∈ listing.located []) :
    ∃ json, (e, json) ∈ (listing.located []).zip diffs := by
  have hfst : ((listing.located []).zip diffs).map Prod.fst = listing.located [] :=
    List.map_fst_zip (length_of_map_eq h).ge
  rw [← hfst] at he
  obtain ⟨⟨e', json⟩, hmem, rfl⟩ := List.mem_map.mp he
  exact ⟨json, hmem⟩

/-- When `dir` is the whole path. -/
theorem whole_iff (h : diffs.map dirAndName = (listing.located []).map reported) :
    (∀ p ∈ (listing.located []).zip diffs,
        dirAndName p.2 = (some (.str (wholeDir p.1.1)), some (.str p.1.2))) ↔
      ∀ e ∈ listing.located [], e.1.length < 2 := by
  -- every place has an entry, whose `dir` is both
  constructor
  · intro hwhole e he
    obtain ⟨json, hmem⟩ := exists_mem_zip h he
    have heq := (dirAndName_of_mem_zip h hmem).symm.trans (hwhole _ hmem)
    rw [← lastDir_eq_wholeDir_iff]
    exact Json.str.inj (Option.some.inj (Prod.mk.inj heq).1)
  · intro hflat p hp
    rw [dirAndName_of_mem_zip h hp, reported,
      (lastDir_eq_wholeDir_iff _).mpr (hflat _ (List.of_mem_zip hp).1)]

/-- When the entries are told apart. -/
theorem toldApart_iff (h : diffs.map dirAndName = (listing.located []).map reported) :
    ToldApart listing diffs ↔
      ∀ e ∈ listing.located [], ∀ e' ∈ listing.located [], e.2 = e'.2 →
        e.1.getLast? = e'.1.getLast? → e.1 = e'.1 := by
  constructor
  · intro hapart e he e' he' hname hlast
    obtain ⟨json, hmem⟩ := exists_mem_zip h he
    obtain ⟨json', hmem'⟩ := exists_mem_zip h he'
    -- two places with the same last component and name are reported alike
    by_contra hne
    refine hapart _ hmem _ hmem' (fun heq => hne (congrArg Prod.fst heq)) ?_
    rw [dirAndName_of_mem_zip h hmem, dirAndName_of_mem_zip h hmem', reported, reported,
      lastDir_inj.mpr hlast, hname]
  · intro htwins p hp q hq hne heq
    rw [dirAndName_of_mem_zip h hp, dirAndName_of_mem_zip h hq] at heq
    obtain ⟨hdir, hname⟩ := Prod.mk.inj heq
    have hname := Json.str.inj (Option.some.inj hname)
    have hlast := lastDir_inj.mp (Json.str.inj (Option.some.inj hdir))
    have hdirs := htwins _ (List.of_mem_zip hp).1 _ (List.of_mem_zip hq).1 hname hlast
    exact hne (Prod.ext hdirs hname)

end Report

/-- The entries of a job, from the directory to compare on. -/
theorem dirAndName_exeSqlJobForDir {full : Nat → Bool} {job : CompareJob} {listing : Listing}
    {path : Bytes} {dirQ : List (Bytes × Int)} {ret : DcCommonCode} {w : Walk}
    (hnames : ∀ e ∈ listing.located [], IsFileName e.2)
    (h : exeSqlJobForDir full job true listing path 0 (Walk.fresh dirQ) = some (ret, w)) :
    w.diffs.map dirAndName = (listing.located []).map reported := by
  have hloop : readLoop full job listing (path ++ below []) ([] : List Bytes).length
      (Walk.fresh dirQ) = some (ret, w) := (List.append_nil path).symm ▸ h
  exact dirAndName_readLoop (by simp) hnames hloop

/-- **When an entry says where its file is.** After a walk of any tree `dir` is the whole path
everywhere, and tells the entries apart, exactly if every entry is in the directory to compare
or right below it. The entries are told apart exactly if two that have the same name, in
directories with the same name, are in the same directory. -/
theorem identified_iff {full : Nat → Bool} {job : CompareJob} {listing : Listing}
    {path : Bytes} {dirQ : List (Bytes × Int)} {ret : DcCommonCode} {w : Walk}
    (hnames : ∀ e ∈ listing.located [], IsFileName e.2)
    (h : exeSqlJobForDir full job true listing path 0 (Walk.fresh dirQ) = some (ret, w)) :
    (Identified listing w.diffs ↔ ∀ e ∈ listing.located [], e.1.length < 2) ∧
      (ToldApart listing w.diffs ↔
        ∀ e ∈ listing.located [], ∀ e' ∈ listing.located [], e.2 = e'.2 →
          e.1.getLast? = e'.1.getLast? → e.1 = e'.1) := by
  have hmap := dirAndName_exeSqlJobForDir hnames h
  refine ⟨⟨fun hid => (whole_iff hmap).mp hid.whole, fun hflat => ?_⟩, toldApart_iff hmap⟩
  refine ⟨length_of_map_eq hmap, (whole_iff hmap).mpr hflat, (toldApart_iff hmap).mpr ?_⟩
  intro e he e' he' _ hlast
  -- at most one component, so the last one is all
  have hone : ∀ dirs : List Bytes, dirs.length < 2 → dirs = dirs.getLast?.toList := by
    intro dirs hlen
    cases dirs with
    | nil => rfl
    | cons d dirs =>
      have hnil : dirs.length = 0 := Nat.lt_one_iff.mp (Nat.lt_of_succ_lt_succ hlen)
      rw [List.length_eq_zero_iff.mp hnil]
      rfl
  rw [hone _ (hflat e he), hlast, ← hone _ (hflat e' he')]

/-- A file and a directory with a file of the same name. -/
def flatTree : Listing :=
  .other (ascii "f") (some true)
    (.dir (ascii "a") true (.other (ascii "f") (some true) .done) .done)

theorem identified_flat :
    ∃ r, exeSqlJobForDir overBatch localJob true flatTree (ascii "/srv") 0 (Walk.fresh []) =
      some r ∧ Identified flatTree r.2.diffs := by
  have hrun : (exeSqlJobForDir overBatch localJob true flatTree (ascii "/srv") 0
      (Walk.fresh [])).isSome = true := rfl
  obtain ⟨r, hr⟩ := Option.isSome_iff_exists.mp hrun
  exact ⟨r, hr, (identified_iff (by decide) hr).1.mpr (by decide)⟩

/-- `a/x/f` and `b/x/f` -/
def twinTree : Listing :=
  let x : Listing := .dir (ascii "x") true (.other (ascii "f") (some true) .done) .done
  .dir (ascii "a") true x (.dir (ascii "b") true x .done)

/-- Both files are reported as `f` in `/x`. -/
theorem not_identified_twins :
    ¬ ∀ (job : CompareJob) (listing : Listing) (path : Bytes) (ret : DcCommonCode) (w : Walk),
      (∀ e ∈ listing.located [], IsFileName e.2) →
      exeSqlJobForDir overBatch job true listing path 0 (Walk.fresh []) = some (ret, w) →
        Identified listing w.diffs := by
  intro hall
  have hrun : (exeSqlJobForDir overBatch localJob true twinTree (ascii "/srv") 0
      (Walk.fresh [])).isSome = true := rfl
  obtain ⟨⟨ret, w⟩, hr⟩ := Option.isSome_iff_exists.mp hrun
  have hnames : ∀ e ∈ twinTree.located [], IsFileName e.2 := by decide
  have hid := hall _ _ _ _ _ hnames hr
  -- both are `f` in a directory `x`, and the directories differ
  have htwins := (toldApart_iff (dirAndName_exeSqlJobForDir hnames hr)).mp hid.apart
  have heq := htwins ([ascii "a", ascii "x"], ascii "f") (by decide)
    ([ascii "b", ascii "x"], ascii "f") (by decide) rfl rfl
  exact absurd heq (by decide)

end Wfrest
