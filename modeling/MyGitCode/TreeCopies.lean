import Mathlib.Data.List.Infix
import Mathlib.Data.List.Nodup
import Mathlib.Logic.Function.Basic
import Mathlib.Data.Nat.Notation

/-! # Copies of directory trees

`copyFiles` of `file_operate/copyfiles.py` and `copy_files` of `tkinter/make_ta_pkg.py`. A path
is its names, from the directory that is copied or copied to. -/
namespace TreeCopies

abbrev Name := List Char

abbrev Path := List Name

abbrev Content := List (Fin 256)

/-- What `os.listdir` finds in a directory, in some order, with what is in its directories. -/
inductive Listing where
  | nil
  | file (name : Name) (content : Content) (rest : Listing)
  | dir (name : Name) (entries : Listing) (rest : Listing)
  deriving DecidableEq

inductive Node where
  | file (content : Content)
  | dir
  deriving DecidableEq

abbrev Disk := Path → Option Node

structure State where
  disk : Disk
  copyFileCounts : ℕ

/-- `os.makedirs` of a path that does not exist. -/
def makedirs (disk : Disk) (path : Path) : Option Disk :=
  if ∀ q ∈ path.inits, disk q = none ∨ disk q = some .dir then
    some fun q => if q <+: path then some .dir else disk q
  else none

/-- `open(path, "wb").write(content)` of a file in a directory. -/
def writeFile (disk : Disk) (dir : Path) (name : Name) (content : Content) : Option Disk :=
  if disk dir = some .dir ∧ disk (dir ++ [name]) ≠ some .dir then
    some (Function.update disk (dir ++ [name]) (some (.file content)))
  else none

/-- `os.path.getsize` of what exists; the size of a directory is up to the system. -/
def getsize (dirSize : Path → ℕ) (disk : Disk) (path : Path) : Option ℕ :=
  (disk path).map fun node =>
    match node with
    | .file content => content.length
    | .dir => dirSize path

def copyFile (dirSize : Path → ℕ) (targetDir : Path) (name : Name) (content : Content)
    (s : State) : Option State := do
  let disk ← (if s.disk targetDir = none then makedirs s.disk targetDir else some s.disk)
  let copyFileCounts := s.copyFileCounts + 1
  if getsize dirSize disk (targetDir ++ [name]) ≠ some content.length then
    let disk ← writeFile disk targetDir name content
    return ⟨disk, copyFileCounts⟩
  else return ⟨disk, copyFileCounts⟩

/-- The walk through a directory; some directories may be passed over. -/
def copyEntries (dirSize : Path → ℕ) (skip : Path → Bool) :
    Listing → Path → State → Option State
  | .nil, _, s => some s
  | .file name content rest, targetDir, s =>
    (copyFile dirSize targetDir name content s).bind (copyEntries dirSize skip rest targetDir)
  | .dir name entries rest, targetDir, s =>
    if skip (targetDir ++ [name]) then copyEntries dirSize skip rest targetDir s
    else (copyEntries dirSize skip entries (targetDir ++ [name]) s).bind
      (copyEntries dirSize skip rest targetDir)

def copyFiles (dirSize : Path → ℕ) (source : Listing) (s : State) : Option State :=
  copyEntries dirSize (fun _ => false) source [] s

/-- `copy_files` passes over the directories with `FotaImage` in their path, which begins with
`sourceDir`. -/
def MakeTaPkg.copyFiles (dirSize : Path → ℕ) (sourceDir : Path) (source : Listing) (s : State) :
    Option State :=
  copyEntries dirSize
    (fun path => (sourceDir ++ path).any fun name => "FotaImage".toList <:+: name) source [] s

def Listing.names : Listing → List Name
  | .nil => []
  | .file name _ rest => name :: rest.names
  | .dir name _ rest => name :: rest.names

def Listing.Distinct : Listing → Prop
  | .nil => True
  | .file name _ rest => name ∉ rest.names ∧ rest.Distinct
  | .dir name entries rest => name ∉ rest.names ∧ entries.Distinct ∧ rest.Distinct

def Listing.fileAt : Listing → Path → Option Content
  | .nil, _ => none
  | .file name content rest, path => if path = [name] then some content else rest.fileAt path
  | .dir name entries rest, path =>
    if path.head? = some name then entries.fileAt path.tail else rest.fileAt path

/-- No directory of the target stands where a file is copied, and no file where a directory has
to be. -/
def Clear (disk : Disk) (source : Listing) : Prop :=
  ∀ path content, source.fileAt path = some content → disk path ≠ some .dir ∧
    ∀ q, q <+: path → q ≠ path → ∀ old, disk q ≠ some (.file old)

structure Job where
  dir : Path
  name : Name
  content : Content

def Job.path (j : Job) : Path := j.dir ++ [j.name]

variable {dirSize : Path → ℕ} {skip : Path → Bool} {source rest entries : Listing}
  {disk disk' : Disk} {s t : State} {q targetDir : Path} {name : Name} {j k : Job}
  {js : List Job}

def jobs (skip : Path → Bool) : Listing → Path → List Job
  | .nil, _ => []
  | .file name content rest, targetDir => ⟨targetDir, name, content⟩ :: jobs skip rest targetDir
  | .dir name entries rest, targetDir =>
    (if skip (targetDir ++ [name]) then [] else jobs skip entries (targetDir ++ [name])) ++
      jobs skip rest targetDir

def runJob (dirSize : Path → ℕ) (s : State) (j : Job) : Option State :=
  copyFile dirSize j.dir j.name j.content s

theorem copyEntries_eq : copyEntries dirSize skip source targetDir s =
    (jobs skip source targetDir).foldlM (runJob dirSize) s := by
  induction source generalizing targetDir s with
  | nil => rfl
  | file name content rest ih =>
    rw [copyEntries, jobs, List.foldlM_cons]
    exact congrArg _ (funext fun _ => ih)
  | dir name entries rest ihe ihr =>
    rw [copyEntries, jobs, List.foldlM_append]
    by_cases hskip : skip (targetDir ++ [name]) = true
    · rw [if_pos hskip, if_pos hskip, ihr]
      rfl
    · rw [if_neg hskip, if_neg hskip, ihe]
      exact congrArg _ (funext fun _ => ihr)

/-- Files at different paths, none of which is a directory of another one. -/
structure Apart (js : List Job) : Prop where
  paths : js.Pairwise fun j k => j.path ≠ k.path
  nested : ∀ j ∈ js, ∀ k ∈ js, ¬ j.path <+: k.dir

def Free (disk : Disk) (js : List Job) : Prop :=
  ∀ j ∈ js, disk j.path ≠ some .dir ∧ ∀ q, q <+: j.dir → ∀ old, disk q ≠ some (.file old)

def merged (before : Option Node) (content : Content) : Node :=
  match before with
  | some (.file old) => if old.length = content.length then .file old else .file content
  | _ => .file content

/-- Apart from the path, directories may have appeared where nothing was. -/
structure Copied (j : Job) (disk disk' : Disk) : Prop where
  at_path : disk' j.path = some (merged (disk j.path) j.content)
  dir : disk' j.dir = some .dir
  other : ∀ q, q ≠ j.path →
    disk' q = disk q ∨ disk q = none ∧ disk' q = some .dir ∧ q <+: j.dir

theorem path_not_isPrefix_dir : ¬ j.path <+: j.dir := by
  intro h
  have := h.length_le
  simp only [Job.path, List.length_append, List.length_singleton] at this
  omega

theorem exists_dir (hfree : ∀ q, q <+: j.dir → ∀ old, disk q ≠ some (.file old)) :
    ∃ disk', (if disk j.dir = none then makedirs disk j.dir else some disk) = some disk' ∧
      disk' j.dir = some .dir ∧ disk' j.path = disk j.path ∧
      ∀ q, disk' q = disk q ∨ disk q = none ∧ disk' q = some .dir ∧ q <+: j.dir := by
  have hnode : ∀ q, q <+: j.dir → disk q = none ∨ disk q = some .dir := by
    intro q hq
    match hdisk : disk q with
    | none => exact .inl rfl
    | some .dir => exact .inr rfl
    | some (.file old) => exact absurd hdisk (hfree q hq old)
  by_cases hnone : disk j.dir = none
  · have hmake : makedirs disk j.dir =
        some fun q => if q <+: j.dir then some .dir else disk q :=
      if_pos fun q hq => hnode q ((List.mem_inits q j.dir).mp hq)
    refine ⟨_, by rw [if_pos hnone, hmake], if_pos (List.prefix_refl _),
      if_neg path_not_isPrefix_dir, ?_⟩
    intro q
    by_cases hq : q <+: j.dir
    · rcases hnode q hq with h | h
      · exact .inr ⟨h, if_pos hq, hq⟩
      · exact .inl (by rw [if_pos hq, h])
    · exact .inl (if_neg hq)
  · have hdir : disk j.dir = some .dir :=
      (hnode j.dir (List.prefix_refl _)).resolve_left hnone
    exact ⟨disk, if_neg hnone, hdir, rfl, fun q => .inl rfl⟩

theorem merged_of_getsize {path : Path} {content : Content} (hne : disk path ≠ some .dir)
    (h : getsize dirSize disk path = some content.length) :
    disk path = some (merged (disk path) content) := by
  unfold getsize at h
  match hnode : disk path with
  | none => exact absurd h (by simp [hnode])
  | some .dir => exact absurd hnode hne
  | some (.file old) =>
    simp only [hnode, Option.map_some, Option.some.injEq] at h
    rw [merged, if_pos h]

theorem merged_of_getsize_ne {path : Path} {content : Content}
    (h : getsize dirSize disk path ≠ some content.length) :
    merged (disk path) content = .file content := by
  unfold getsize at h
  match hnode : disk path with
  | none => rfl
  | some .dir => rfl
  | some (.file old) =>
    simp only [hnode, Option.map_some, ne_eq, Option.some.injEq] at h
    rw [merged, if_neg h]

theorem runJob_copied (hfree : Free s.disk [j]) :
    ∃ t, runJob dirSize s j = some t ∧ Copied j s.disk t.disk := by
  obtain ⟨hpath, hdirs⟩ := hfree j (List.mem_singleton.mpr rfl)
  obtain ⟨disk, hdisk, hdir, hsame, hother⟩ := exists_dir hdirs
  have hwrite : writeFile disk j.dir j.name j.content =
      some (Function.update disk j.path (some (.file j.content))) :=
    if_pos ⟨hdir, fun h => hpath (hsame ▸ h)⟩
  have hne : j.dir ≠ j.path := by
    intro h
    have hself : j.path <+: j.dir := by rw [h]
    exact path_not_isPrefix_dir hself
  by_cases hsize : getsize dirSize disk j.path = some j.content.length
  · have hrun : runJob dirSize s j = some ⟨disk, s.copyFileCounts + 1⟩ := by
      simp only [runJob, copyFile, hdisk, Option.bind_eq_bind, Option.bind_some]
      exact if_neg (not_not.mpr hsize)
    refine ⟨_, hrun, ?_, hdir, fun q _ => hother q⟩
    rw [← hsame] at hpath ⊢
    exact merged_of_getsize hpath hsize
  · have hrun : runJob dirSize s j = some
        ⟨Function.update disk j.path (some (.file j.content)), s.copyFileCounts + 1⟩ := by
      simp only [runJob, copyFile, hdisk, Option.bind_eq_bind, Option.bind_some, hwrite]
      exact if_pos hsize
    refine ⟨_, hrun, ?_, ?_, ?_⟩
    · rw [← hsame, merged_of_getsize_ne hsize]
      exact Function.update_self ..
    · exact (Function.update_of_ne hne _ _).trans hdir
    · intro q hq
      show Function.update disk j.path _ q = _ ∨ _ ∧ Function.update disk j.path _ q = _ ∧ _
      rw [Function.update_of_ne hq]
      exact hother q

structure AllCopied (js : List Job) (disk disk' : Disk) : Prop where
  at_path : ∀ j ∈ js, disk' j.path = some (merged (disk j.path) j.content)
  dir : ∀ j ∈ js, disk' j.dir = some .dir
  other : ∀ q, (∀ j ∈ js, q ≠ j.path) →
    disk' q = disk q ∨ disk q = none ∧ disk' q = some .dir

theorem Copied.same_paths (hapart : Apart (j :: js)) (h : Copied j disk disk') :
    ∀ k ∈ js, disk' k.path = disk k.path := by
  intro k hk
  rcases h.other k.path (Ne.symm ((List.pairwise_cons.mp hapart.paths).1 k hk)) with h | ⟨-, -, h⟩
  · exact h
  · exact absurd h
      (hapart.nested k (List.mem_cons_of_mem _ hk) j List.mem_cons_self)

theorem Copied.free (hapart : Apart (j :: js)) (hfree : Free disk (j :: js))
    (h : Copied j disk disk') : Free disk' js := by
  intro k hk
  obtain ⟨hpath, hdirs⟩ := hfree k (List.mem_cons_of_mem _ hk)
  refine ⟨by rw [h.same_paths hapart k hk]; exact hpath, ?_⟩
  intro q hq old
  have hne : q ≠ j.path := by
    rintro rfl
    exact hapart.nested j List.mem_cons_self k (List.mem_cons_of_mem _ hk) hq
  rcases h.other q hne with h | ⟨-, h, -⟩
  · rw [h]
    exact hdirs q hq old
  · rw [h]
    nofun

theorem AllCopied.cons {disk₁ : Disk} (hapart : Apart (j :: js)) (h : Copied j disk disk₁)
    (hall : AllCopied js disk₁ disk') : AllCopied (j :: js) disk disk' where
  at_path := by
    intro k hk
    rcases List.mem_cons.mp hk with rfl | hk
    · rcases hall.other k.path (List.pairwise_cons.mp hapart.paths).1 with hq | ⟨hq, -⟩
      · rw [hq, h.at_path]
      · cases hq.symm.trans h.at_path
    · rw [hall.at_path k hk, h.same_paths hapart k hk]
  dir := by
    intro k hk
    rcases List.mem_cons.mp hk with rfl | hk
    · have hne : ∀ l ∈ js, k.dir ≠ l.path := fun l hl heq =>
        hapart.nested l (List.mem_cons_of_mem _ hl) k List.mem_cons_self (by rw [heq])
      rcases hall.other k.dir hne with hq | ⟨hq, -⟩
      · rw [hq, h.dir]
      · cases hq.symm.trans h.dir
    · exact hall.dir k hk
  other := by
    intro q hq
    have hj := h.other q (hq j List.mem_cons_self)
    rcases hall.other q fun k hk => hq k (List.mem_cons_of_mem _ hk) with hq | ⟨hnone, hdir⟩
    · rw [hq]
      rcases hj with hj | ⟨hj, hdir, -⟩
      · exact .inl hj
      · exact .inr ⟨hj, hdir⟩
    · rcases hj with hj | ⟨-, hdir', -⟩
      · exact .inr ⟨hj ▸ hnone, hdir⟩
      · cases hnone.symm.trans hdir'

theorem runJobs_copied (hapart : Apart js) (hfree : Free s.disk js) :
    ∃ t, js.foldlM (runJob dirSize) s = some t ∧ AllCopied js s.disk t.disk := by
  induction js generalizing s with
  | nil => exact ⟨s, rfl, nofun, nofun, fun _ _ => .inl rfl⟩
  | cons j js ih =>
    obtain ⟨u, hu, hcopied⟩ := @runJob_copied dirSize s j fun k hk =>
      List.mem_singleton.mp hk ▸ hfree j List.mem_cons_self
    have hrest : Apart js := ⟨(List.pairwise_cons.mp hapart.paths).2, fun k hk l hl =>
      hapart.nested k (List.mem_cons_of_mem _ hk) l (List.mem_cons_of_mem _ hl)⟩
    obtain ⟨t, ht, hall⟩ := ih hrest (hcopied.free hapart hfree)
    refine ⟨t, ?_, hall.cons hapart hcopied⟩
    rw [List.foldlM_cons, hu]
    exact ht

theorem merged_size (before : Option Node) (content : Content) :
    ∃ c : Content, merged before content = .file c ∧ c.length = content.length := by
  unfold merged
  split
  · split
    · exact ⟨_, rfl, ‹_›⟩
    · exact ⟨_, rfl, rfl⟩
  · exact ⟨_, rfl, rfl⟩

theorem runJobs_again (h : ∀ j ∈ js, s.disk j.dir = some .dir ∧
      ∃ c : Content, s.disk j.path = some (.file c) ∧ c.length = j.content.length) :
    ∃ t, js.foldlM (runJob dirSize) s = some t ∧ t.disk = s.disk := by
  induction js generalizing s with
  | nil => exact ⟨s, rfl, rfl⟩
  | cons j js ih =>
    obtain ⟨hdir, c, hc, hlen⟩ := h j List.mem_cons_self
    have hsize : getsize dirSize s.disk j.path = some j.content.length := by
      rw [getsize, hc, ← hlen]
      rfl
    have hne : s.disk j.dir ≠ none := by
      rw [hdir]
      nofun
    have hrun : runJob dirSize s j = some ⟨s.disk, s.copyFileCounts + 1⟩ := by
      simp only [runJob, copyFile, if_neg hne, Option.bind_eq_bind, Option.bind_some]
      exact if_neg (not_not.mpr hsize)
    obtain ⟨t, ht, hdisk⟩ := @ih ⟨s.disk, s.copyFileCounts + 1⟩ fun k hk =>
      h k (List.mem_cons_of_mem _ hk)
    refine ⟨t, ?_, hdisk⟩
    rw [List.foldlM_cons, hrun]
    exact ht

theorem fileAt_names {p : Path} {c : Content} (h : source.fileAt p = some c) :
    ∃ n ∈ source.names, ∃ r, p = n :: r := by
  induction source generalizing p with
  | nil => cases h
  | file name content rest ih =>
    rw [Listing.fileAt] at h
    by_cases hp : p = [name]
    · exact ⟨name, List.mem_cons_self, [], hp⟩
    · rw [if_neg hp] at h
      obtain ⟨n, hn, hr⟩ := ih h
      exact ⟨n, List.mem_cons_of_mem _ hn, hr⟩
  | dir name entries rest _ ih =>
    rw [Listing.fileAt] at h
    by_cases hp : p.head? = some name
    · obtain ⟨r, hr⟩ := List.head?_eq_some_iff.mp hp
      exact ⟨name, List.mem_cons_self, r, hr⟩
    · rw [if_neg hp] at h
      obtain ⟨n, hn, hr⟩ := ih h
      exact ⟨n, List.mem_cons_of_mem _ hn, hr⟩

theorem path_of_mem_jobs (h : j ∈ jobs skip source targetDir) :
    ∃ n ∈ source.names, ∃ r, j.path = targetDir ++ n :: r := by
  induction source generalizing targetDir with
  | nil => cases h
  | file name content rest ih =>
    rcases List.mem_cons.mp h with rfl | h
    · exact ⟨name, List.mem_cons_self, [], rfl⟩
    · obtain ⟨n, hn, hr⟩ := ih h
      exact ⟨n, List.mem_cons_of_mem _ hn, hr⟩
  | dir name entries rest ihe ih =>
    rcases List.mem_append.mp h with h | h
    · by_cases hskip : skip (targetDir ++ [name]) = true
      · rw [if_pos hskip] at h
        cases h
      · rw [if_neg hskip] at h
        obtain ⟨n, -, r, hr⟩ := ihe h
        refine ⟨name, List.mem_cons_self, n :: r, ?_⟩
        rw [hr, List.append_assoc, List.singleton_append]
    · obtain ⟨n, hn, hr⟩ := ih h
      exact ⟨n, List.mem_cons_of_mem _ hn, hr⟩

theorem name_of_isPrefix {a b : Name} {p r : Path}
    (h : targetDir ++ a :: p <+: targetDir ++ b :: r) : a = b := by
  rw [List.prefix_append_right_inj, List.cons_prefix_cons] at h
  exact h.1

theorem dir_isPrefix_path : j.dir <+: j.path := List.prefix_append _ _

theorem path_not_isPrefix {a b : Name} {p r : Path} (hj : j.path = targetDir ++ a :: p)
    (hk : k.path = targetDir ++ b :: r) (hne : a ≠ b) : ¬ j.path <+: k.path := by
  rw [hj, hk]
  exact fun h => hne (name_of_isPrefix h)

theorem Apart.append {js ks : List Job} (hj : Apart js) (hk : Apart ks)
    (hjk : ∀ j ∈ js, ∀ k ∈ ks, ¬ j.path <+: k.path)
    (hkj : ∀ k ∈ ks, ∀ j ∈ js, ¬ k.path <+: j.path) : Apart (js ++ ks) where
  paths := by
    rw [List.pairwise_append]
    refine ⟨hj.paths, hk.paths, ?_⟩
    intro j hmj k hmk heq
    exact hjk j hmj k hmk (by rw [heq])
  nested := by
    intro j hmj k hmk h
    have hpath : j.path <+: k.path := h.trans dir_isPrefix_path
    rcases List.mem_append.mp hmj with hmj | hmj
    · rcases List.mem_append.mp hmk with hmk | hmk
      · exact hj.nested j hmj k hmk h
      · exact hjk j hmj k hmk hpath
    · rcases List.mem_append.mp hmk with hmk | hmk
      · exact hkj j hmj k hmk hpath
      · exact hk.nested j hmj k hmk h

theorem apart_singleton (j : Job) : Apart [j] where
  paths := List.pairwise_singleton _ _
  nested := by
    intro k hk l hl
    rw [List.mem_singleton.mp hk, List.mem_singleton.mp hl]
    exact path_not_isPrefix_dir

theorem path_of_mem_rest (hname : name ∉ rest.names) (hk : k ∈ jobs skip rest targetDir) :
    ∃ n, n ≠ name ∧ ∃ r, k.path = targetDir ++ n :: r := by
  obtain ⟨n, hn, hr⟩ := path_of_mem_jobs hk
  exact ⟨n, fun heq => hname (heq ▸ hn), hr⟩

theorem apart_jobs (h : source.Distinct) : Apart (jobs skip source targetDir) := by
  induction source generalizing targetDir with
  | nil => exact ⟨.nil, nofun⟩
  | file name content rest ih =>
    obtain ⟨hname, hrest⟩ := h
    refine Apart.append (apart_singleton ⟨targetDir, name, content⟩) (ih hrest) ?_ ?_
    · intro j hj k hk
      obtain ⟨n, hn, r, hr⟩ := path_of_mem_rest hname hk
      rw [List.mem_singleton.mp hj]
      exact path_not_isPrefix rfl hr (Ne.symm hn)
    · intro k hk j hj
      obtain ⟨n, hn, r, hr⟩ := path_of_mem_rest hname hk
      rw [List.mem_singleton.mp hj]
      exact path_not_isPrefix hr rfl hn
  | dir name entries rest ihe ih =>
    obtain ⟨hname, hentries, hrest⟩ := h
    by_cases hskip : skip (targetDir ++ [name]) = true
    · rw [jobs, if_pos hskip, List.nil_append]
      exact ih hrest
    · have hinside : ∀ j ∈ jobs skip entries (targetDir ++ [name]), ∃ r,
          j.path = targetDir ++ name :: r := by
        intro j hj
        obtain ⟨n, -, r, hr⟩ := path_of_mem_jobs hj
        exact ⟨n :: r, by rw [hr, List.append_assoc, List.singleton_append]⟩
      rw [jobs, if_neg hskip]
      refine Apart.append (ihe hentries) (ih hrest) ?_ ?_
      · intro j hj k hk
        obtain ⟨n, hn, r, hr⟩ := path_of_mem_rest hname hk
        obtain ⟨r', hr'⟩ := hinside j hj
        exact path_not_isPrefix hr' hr (Ne.symm hn)
      · intro k hk j hj
        obtain ⟨n, hn, r, hr⟩ := path_of_mem_rest hname hk
        obtain ⟨r', hr'⟩ := hinside j hj
        exact path_not_isPrefix hr hr' hn

def Reached (skip : Path → Bool) (targetDir p : Path) : Prop :=
  ∀ q, q <+: p → q ≠ [] → q ≠ p → skip (targetDir ++ q) = false

theorem reached_cons {n : Name} {p : Path} (hp : p ≠ []) : Reached skip targetDir (n :: p) ↔
    skip (targetDir ++ [n]) = false ∧ Reached skip (targetDir ++ [n]) p := by
  constructor
  · intro h
    constructor
    · exact h [n] (List.cons_prefix_cons.mpr ⟨rfl, List.nil_prefix⟩) (List.cons_ne_nil _ _)
        fun heq => hp (List.cons.inj heq).2.symm
    · intro q hq _ hne
      rw [List.append_assoc]
      exact h (n :: q) (List.cons_prefix_cons.mpr ⟨rfl, hq⟩) (List.cons_ne_nil _ _)
        fun heq => hne (List.cons.inj heq).2
  · rintro ⟨hfirst, hrest⟩ q hq hnil hne
    obtain ⟨m, q, rfl⟩ := List.exists_cons_of_ne_nil hnil
    obtain ⟨rfl, hq'⟩ := List.cons_prefix_cons.mp hq
    by_cases hempty : q = []
    · rw [hempty]
      exact hfirst
    · have hstep := hrest q hq' hempty fun heq => hne (heq ▸ rfl)
      rw [List.append_assoc] at hstep
      exact hstep

theorem reached_singleton {n : Name} : Reached skip targetDir [n] := by
  intro q hq hnil hne
  obtain ⟨m, q, rfl⟩ := List.exists_cons_of_ne_nil hnil
  obtain ⟨rfl, hq'⟩ := List.cons_prefix_cons.mp hq
  rw [List.prefix_nil.mp hq'] at hne
  exact absurd rfl hne

theorem path_ne_of_mem_rest {p : Path} (hname : name ∉ rest.names)
    (hk : k ∈ jobs skip rest targetDir) : k.path ≠ targetDir ++ name :: p := by
  obtain ⟨n, hn, r, hr⟩ := path_of_mem_rest hname hk
  intro heq
  rw [hr, List.append_cancel_left_eq] at heq
  exact hn (List.cons.inj heq).1

theorem mem_jobs_dir : j ∈ jobs skip (.dir name entries rest) targetDir ↔
    (skip (targetDir ++ [name]) = false ∧ j ∈ jobs skip entries (targetDir ++ [name])) ∨
      j ∈ jobs skip rest targetDir := by
  rw [jobs, List.mem_append]
  by_cases hskip : skip (targetDir ++ [name]) = true
  · simp [hskip]
  · simp [hskip]

def HasJob (skip : Path → Bool) (source : Listing) (targetDir p : Path) (c : Content) : Prop :=
  ∃ j ∈ jobs skip source targetDir, j.path = targetDir ++ p ∧ j.content = c

theorem hasJob_file {content c : Content} {p : Path} (hname : name ∉ rest.names) :
    HasJob skip (.file name content rest) targetDir p c ↔
      if p = [name] then content = c else HasJob skip rest targetDir p c := by
  by_cases hp : p = [name]
  · subst hp
    rw [if_pos rfl]
    constructor
    · rintro ⟨j, hj, hpath, rfl⟩
      rcases List.mem_cons.mp hj with rfl | hj
      · rfl
      · exact absurd hpath (path_ne_of_mem_rest hname hj)
    · rintro rfl
      exact ⟨_, List.mem_cons_self, rfl, rfl⟩
  · rw [if_neg hp]
    constructor
    · rintro ⟨j, hj, hpath, rfl⟩
      rcases List.mem_cons.mp hj with rfl | hj
      · exact absurd (List.append_cancel_left hpath).symm hp
      · exact ⟨j, hj, hpath, rfl⟩
    · rintro ⟨j, hj, hpath⟩
      exact ⟨j, List.mem_cons_of_mem _ hj, hpath⟩

theorem hasJob_below {c : Content} {r : Path} (hname : name ∉ rest.names) :
    HasJob skip (.dir name entries rest) targetDir (name :: r) c ↔
      skip (targetDir ++ [name]) = false ∧ HasJob skip entries (targetDir ++ [name]) r c := by
  have happ : targetDir ++ name :: r = targetDir ++ [name] ++ r := by simp
  constructor
  · rintro ⟨j, hj, hpath, rfl⟩
    rcases mem_jobs_dir.mp hj with ⟨hskip, hj⟩ | hj
    · exact ⟨hskip, j, hj, hpath.trans happ, rfl⟩
    · exact absurd hpath (path_ne_of_mem_rest hname hj)
  · rintro ⟨hskip, j, hj, hpath, rfl⟩
    exact ⟨j, mem_jobs_dir.mpr (.inl ⟨hskip, hj⟩), hpath.trans happ.symm, rfl⟩

theorem hasJob_beside {c : Content} {p : Path} (hp : p.head? ≠ some name) :
    HasJob skip (.dir name entries rest) targetDir p c ↔ HasJob skip rest targetDir p c := by
  constructor
  · rintro ⟨j, hj, hpath, rfl⟩
    rcases mem_jobs_dir.mp hj with ⟨-, hj⟩ | hj
    · obtain ⟨n, -, r, hr⟩ := path_of_mem_jobs hj
      rw [hpath, List.append_assoc, List.append_cancel_left_eq] at hr
      rw [hr] at hp
      exact absurd rfl hp
    · exact ⟨j, hj, hpath, rfl⟩
  · rintro ⟨j, hj, hpath⟩
    exact ⟨j, mem_jobs_dir.mpr (.inr hj), hpath⟩

theorem mem_jobs {p : Path} {c : Content} (h : source.Distinct) :
    HasJob skip source targetDir p c ↔ source.fileAt p = some c ∧ Reached skip targetDir p := by
  induction source generalizing targetDir p with
  | nil =>
    constructor
    · rintro ⟨j, hj, -⟩
      cases hj
    · rintro ⟨hc, -⟩
      cases hc
  | file name content rest ih =>
    obtain ⟨hname, hrest⟩ := h
    rw [hasJob_file hname, Listing.fileAt]
    by_cases hp : p = [name]
    · subst hp
      rw [if_pos rfl, if_pos rfl, Option.some_inj]
      exact (and_iff_left reached_singleton).symm
    · rw [if_neg hp, if_neg hp, ih hrest]
  | dir name entries rest ihe ih =>
    obtain ⟨hname, hentries, hrest⟩ := h
    rw [Listing.fileAt]
    by_cases hp : p.head? = some name
    · obtain ⟨r, rfl⟩ := List.head?_eq_some_iff.mp hp
      rw [hasJob_below hname, ihe hentries, if_pos hp, List.tail_cons, and_left_comm]
      refine and_congr_right fun hc => ?_
      obtain ⟨n, -, q, rfl⟩ := fileAt_names hc
      exact (reached_cons (List.cons_ne_nil _ _)).symm
    · rw [hasJob_beside hp, if_neg hp, ih hrest]

theorem fileAt_of_mem_jobs (h : source.Distinct) (hj : j ∈ jobs skip source []) :
    source.fileAt j.path = some j.content :=
  ((mem_jobs h).mp ⟨j, hj, rfl, rfl⟩).1

theorem free_jobs (h : source.Distinct) (hclear : Clear disk source) :
    Free disk (jobs skip source []) := by
  intro j hj
  obtain ⟨hpath, hdirs⟩ := hclear j.path j.content (fileAt_of_mem_jobs h hj)
  refine ⟨hpath, ?_⟩
  intro q hq
  refine hdirs q (hq.trans dir_isPrefix_path) ?_
  rintro rfl
  exact path_not_isPrefix_dir hq

theorem copyEntries_copied (h : source.Distinct) (hclear : Clear s.disk source) :
    ∃ t, copyEntries dirSize skip source [] s = some t ∧
      AllCopied (jobs skip source []) s.disk t.disk := by
  rw [copyEntries_eq]
  exact runJobs_copied (apart_jobs h) (free_jobs h hclear)

theorem copyEntries_again {again : Listing} (h : source.Distinct) (hagain : again.Distinct)
    (hsame : ∀ path, again.fileAt path = source.fileAt path)
    (hall : AllCopied (jobs skip source []) disk s.disk) :
    ∃ t, copyEntries dirSize skip again [] s = some t ∧ t.disk = s.disk := by
  rw [copyEntries_eq]
  refine runJobs_again ?_
  intro j hj
  obtain ⟨hc, hr⟩ := (mem_jobs hagain).mp ⟨j, hj, rfl, rfl⟩
  rw [hsame] at hc
  obtain ⟨k, hk, hpath, hcontent⟩ := (mem_jobs h).mpr ⟨hc, hr⟩
  rw [List.nil_append] at hpath
  have hdir : k.dir = j.dir :=
    (List.append_inj' (show k.dir ++ [k.name] = j.dir ++ [j.name] from hpath) rfl).1
  obtain ⟨c, hmerged, hlen⟩ := merged_size (disk k.path) k.content
  constructor
  · rw [← hdir]
    exact hall.dir k hk
  · refine ⟨c, ?_, hcontent ▸ hlen⟩
    rw [← hmerged, ← hall.at_path k hk]
    exact congrArg s.disk hpath.symm

theorem merged_of_size {old content : Content} (h : old.length = content.length) :
    merged (some (.file old)) content = .file old := if_pos h

theorem merged_of_size_ne {before : Option Node} {content : Content}
    (h : ∀ old, before = some (.file old) → old.length ≠ content.length) :
    merged before content = .file content := by
  unfold merged
  split
  · rw [if_neg (h _ rfl)]
  · rfl

theorem AllCopied.unchanged {content : Content} (hall : AllCopied js disk disk')
    (hq : ∀ j ∈ js, q ≠ j.path) :
    disk q = some (.file content) ↔ disk' q = some (.file content) := by
  rcases hall.other q hq with h | ⟨hnone, hdir⟩
  · rw [h]
  · rw [hnone, hdir]
    simp

/-- The files that the walk reaches are copied where no file of their size stood; the other
files stay. -/
theorem AllCopied.files (h : source.Distinct) (hall : AllCopied (jobs skip source []) disk disk') :
    (∀ path content, source.fileAt path = some content → Reached skip [] path →
      (∀ old, disk path = some (.file old) → old.length = content.length →
        disk' path = some (.file old)) ∧
      ((∀ old, disk path = some (.file old) → old.length ≠ content.length) →
        disk' path = some (.file content))) ∧
    ∀ path, (source.fileAt path = none ∨ ¬ Reached skip [] path) →
      ∀ content, disk path = some (.file content) ↔ disk' path = some (.file content) := by
  constructor
  · intro path content hc hr
    obtain ⟨j, hj, hpath, rfl⟩ := (mem_jobs h).mpr ⟨hc, hr⟩
    rw [List.nil_append] at hpath
    subst hpath
    constructor
    · intro old hold hlen
      rw [hall.at_path j hj, hold, merged_of_size hlen]
    · intro hne
      rw [hall.at_path j hj, merged_of_size_ne hne]
  · intro path hpath content
    refine hall.unchanged ?_
    rintro j hj rfl
    obtain ⟨hc, hr⟩ := (mem_jobs h).mp ⟨j, hj, rfl, rfl⟩
    rcases hpath with hnone | hnot
    · cases hnone.symm.trans hc
    · exact hnot hr

theorem reached_all {p : Path} : Reached (fun _ => false) targetDir p := fun _ _ _ _ => rfl

theorem MakeTaPkg.copyFiles_copied (sourceDir : Path) (h : source.Distinct)
    (hclear : Clear s.disk source) : ∃ t, MakeTaPkg.copyFiles dirSize sourceDir source s = some t ∧
      AllCopied (jobs (fun path => (sourceDir ++ path).any
        fun name => "FotaImage".toList <:+: name) source []) s.disk t.disk :=
  copyEntries_copied h hclear

/-- After `copyFiles` every file of the source is in the target, unless a file of its size was
there before, which stays. Nothing else changes but for new directories, and copying again,
in whatever order the directories are listed then, changes nothing. -/
theorem copyFiles_copied (dirSize : Path → ℕ) (source : Listing) (s : State)
    (hdistinct : source.Distinct) (hclear : Clear s.disk source) :
    ∃ t, copyFiles dirSize source s = some t ∧
      (∀ path content, source.fileAt path = some content →
        (∀ old, s.disk path = some (.file old) → old.length = content.length →
          t.disk path = some (.file old)) ∧
        ((∀ old, s.disk path = some (.file old) → old.length ≠ content.length) →
          t.disk path = some (.file content))) ∧
      (∀ path, source.fileAt path = none → ∀ content,
        s.disk path = some (.file content) ↔ t.disk path = some (.file content)) ∧
      ∀ (dirSize' : Path → ℕ) (again : Listing), again.Distinct →
        (∀ path, again.fileAt path = source.fileAt path) →
        ∃ u, copyFiles dirSize' again t = some u ∧ u.disk = t.disk := by
  obtain ⟨t, ht, hall⟩ := @copyEntries_copied dirSize (fun _ => false) source s hdistinct hclear
  obtain ⟨hfiles, hothers⟩ := hall.files hdistinct
  refine ⟨t, ht, ?_, ?_, ?_⟩
  · exact fun path content hc => hfiles path content hc reached_all
  · exact fun path hpath => hothers path (.inl hpath)
  · intro dirSize' again hagain hsame
    exact copyEntries_again hdistinct hagain hsame hall

/-- The target has the files of the source, its other files as before, and copying again changes
nothing. -/
def Mirrors (dirSize : Path → ℕ) (source : Listing) (s : State) : Prop :=
  ∃ t, copyFiles dirSize source s = some t ∧
    (∀ path content, source.fileAt path = some content →
      t.disk path = some (.file content)) ∧
    (∀ path, source.fileAt path = none → ∀ content,
      s.disk path = some (.file content) ↔ t.disk path = some (.file content)) ∧
    ∀ (dirSize' : Path → ℕ) (again : Listing), again.Distinct →
      (∀ path, again.fileAt path = source.fileAt path) →
      ∃ u, copyFiles dirSize' again t = some u ∧ u.disk = t.disk

/-- No file of the target is out of date while its size is that of the file of the source. -/
def NoneStale (disk : Disk) (source : Listing) : Prop :=
  ∀ path content old, source.fileAt path = some content → disk path = some (.file old) →
    old.length = content.length → old = content

/-- The target becomes a mirror exactly when no file in it is out of date at equal size. -/
theorem copyFiles_mirrors_iff (dirSize : Path → ℕ) (source : Listing) (s : State)
    (hdistinct : source.Distinct) (hclear : Clear s.disk source) :
    Mirrors dirSize source s ↔ NoneStale s.disk source := by
  obtain ⟨t, ht, hfiles, hothers, hagain⟩ := copyFiles_copied dirSize source s hdistinct hclear
  constructor
  · rintro ⟨u, hu, hmirror, -⟩ path content old hc hold hlen
    obtain rfl : t = u := Option.some.inj (ht.symm.trans hu)
    have hkept := (hfiles path content hc).1 old hold hlen
    rw [hmirror path content hc] at hkept
    cases hkept
    rfl
  · intro hnone
    refine ⟨t, ht, ?_, hothers, hagain⟩
    intro path content hc
    by_cases hsize : ∃ old, s.disk path = some (.file old) ∧ old.length = content.length
    · obtain ⟨old, hold, hlen⟩ := hsize
      obtain rfl := hnone path content old hc hold hlen
      exact (hfiles path old hc).1 old hold hlen
    · exact (hfiles path content hc).2 fun old hold hlen => hsize ⟨old, hold, hlen⟩

def twoFiles : Listing :=
  .dir "img".toList (.file "a".toList [1, 2] .nil) (.file "b".toList [3] .nil)

theorem twoFiles_paths {path : Path} {content : Content}
    (h : twoFiles.fileAt path = some content) : path = ["img".toList, "a".toList] ∨
      path = ["b".toList] := by
  simp only [twoFiles, Listing.fileAt] at h
  split at h
  · rename_i hhead
    split at h
    · rename_i htail
      left
      obtain ⟨r, rfl⟩ := List.head?_eq_some_iff.mp hhead
      rw [List.tail_cons] at htail
      rw [htail]
    · cases h
  · split at h
    · exact .inr ‹_›
    · cases h

def oneFile (content : Content) : Disk := fun q =>
  if q = ["b".toList] then some (.file content) else if q = [] then some .dir else none

theorem oneFile_file {content old : Content} {q : Path} (h : oneFile content q = some (.file old)) :
    q = ["b".toList] ∧ old = content := by
  rw [oneFile] at h
  split at h
  · cases h
    exact ⟨‹_›, rfl⟩
  · split at h <;> cases h

theorem oneFile_clear {content : Content} (hname : ∀ path content, source.fileAt path =
      some content → path ≠ [] ∧ ∀ q, q <+: path → q ≠ path → q ≠ ["b".toList]) :
    Clear (oneFile content) source := by
  intro path c hc
  obtain ⟨hnil, hdirs⟩ := hname path c hc
  constructor
  · rw [oneFile, if_neg hnil]
    split <;> nofun
  · intro q hq hne old hold
    exact hdirs q hq hne (oneFile_file hold).1

theorem twoFiles_clear (content : Content) : Clear (oneFile content) twoFiles := by
  apply oneFile_clear
  intro path c hc
  rcases twoFiles_paths hc with rfl | rfl
  · refine ⟨List.cons_ne_nil _ _, ?_⟩
    rintro q hq - rfl
    exact absurd hq (by decide)
  · exact ⟨List.cons_ne_nil _ _, fun q _ hne => hne⟩

/-- The file of the target has another size, and is copied; the other one is new. -/
theorem mirror_of_two_files : Mirrors (fun _ => 4096) twoFiles ⟨oneFile [4, 4], 0⟩ := by
  refine (copyFiles_mirrors_iff _ _ _ ?_ (twoFiles_clear _)).mpr ?_
  · simp [twoFiles, Listing.Distinct, Listing.names]
  · intro path content old hc hold hlen
    obtain ⟨rfl, rfl⟩ := oneFile_file hold
    cases hc
    cases hlen

/-- A file of the same size with another content stays in the target. -/
theorem stale_file_stays : twoFiles.Distinct ∧ Clear (oneFile [4]) twoFiles ∧
    ¬ Mirrors (fun _ => 4096) twoFiles ⟨oneFile [4], 0⟩ := by
  refine ⟨by simp [twoFiles, Listing.Distinct, Listing.names], twoFiles_clear _, ?_⟩
  rintro ⟨t, ht, hfiles, -⟩
  have hkept : (copyFiles (fun _ => 4096) twoFiles ⟨oneFile [4], 0⟩).bind
      (fun t => t.disk ["b".toList]) = some (.file [4]) := by decide
  rw [ht, Option.bind_some, hfiles ["b".toList] [3] rfl] at hkept
  cases hkept

end TreeCopies
