import Kythe.Proto
import Kythe.FileTree.Filepath
import Mathlib.Data.List.Nodup

/-!
# The in-memory file tree

`Map` is `filetree.Map`: corpus → root → directory path → `DirectoryReply`, a reply listing
the tickets of a directory's subdirectories and files.  `addFile` adds a file's ticket to
the directory `Dir(Join("/", path))`, which `ensureDir` makes, together with its missing
parents, linking each new directory into its parent.

The main results:
* `IsTree`: the directories of a corpus root are closed under `Dir`, and each one's
  subdirectory list names exactly its children, once each.  `ensureDirs_spec`: making a
  clean absolute path keeps a tree a tree, adds exactly the path and its ancestors, and
  leaves the file lists as they were.
* `Holds`: a map is what adding a list of files to `NewMap()` should give.  `addFile` takes
  `Holds files` to `Holds (files ++ [file])` (`holds_addFile`), so every run of `AddFile`
  calls gives the map its files call for (`holds_addFiles`).
-/

namespace Kythe.FileTree

/-- `ftpb.DirectoryReply`. -/
structure DirectoryReply where
  subdirectory : List Bytes
  file : List Bytes
  deriving DecidableEq, Repr

/-- `ftpb.DirectoryRequest`. -/
structure DirectoryRequest where
  corpus : Bytes
  root : Bytes
  path : Bytes
  deriving DecidableEq, Repr

/-- The tickets the file tree takes from `kytheuri`, a package outside this repository:
`ToString` of a file's VName, and `URI{Corpus, Root, Path}.String()` of a directory. -/
structure Kytheuri where
  toString : VName → Bytes
  uriString : Bytes → Bytes → Bytes → Bytes

/-- The directories of one corpus root, by path. -/
abbrev Dirs := Bytes → Option DirectoryReply

/-- `Map`: corpus → root → directory path → reply, `none` standing for a missing key. -/
structure Map where
  M : Bytes → Option (Bytes → Option Dirs)

/-- `NewMap`. -/
def newMap : Map := ⟨fun _ => none⟩

/-- `addToSet`. -/
def addToSet (strs : List Bytes) (str : Bytes) : List Bytes :=
  if str ∈ strs then strs else strs ++ [str]

/-- The directories of `corpus`/`root`, if the map has them. -/
def Map.dirsOf (m : Map) (corpus root : Bytes) : Option Dirs :=
  (m.M corpus).bind fun roots => roots root

/-- The directories of `corpus`/`root`, none if the map has not got them. -/
def Map.dirsAt (m : Map) (corpus root : Bytes) : Dirs :=
  (m.dirsOf corpus root).getD fun _ => none

/-- The map with `dirs` as the directories of `corpus`/`root`. -/
def Map.setDirs (m : Map) (corpus root : Bytes) (dirs : Dirs) : Map :=
  ⟨Function.update m.M corpus
    (some (Function.update ((m.M corpus).getD fun _ => none) root (some dirs)))⟩

/-- `ensureCorpusRoot`: the map with the directories of `corpus`/`root` made if missing, and
those directories. -/
def ensureCorpusRoot (m : Map) (corpus root : Bytes) : Map × Dirs :=
  (m.setDirs corpus root (m.dirsAt corpus root), m.dirsAt corpus root)

/-- A write to the reply at `path` through the pointer the map holds. -/
def modifyDir (dirs : Dirs) (path : Bytes) (f : DirectoryReply → DirectoryReply) : Dirs :=
  Function.update dirs path ((dirs path).map f)

/-- The recursion of `ensureDir` on the directories of `corpus`/`root`, which each recursive
call's `ensureCorpusRoot` finds: make `path` if it is missing and, unless it is "/", make its
parent and add the new directory's ticket to the parent's subdirectories.  `fuel` bounds the
depth; `ensureDir` gives more than the path has elements. -/
def ensureDirs (k : Kytheuri) (corpus root : Bytes) : Nat → Dirs → Bytes → Dirs
  | 0, dirs, _ => dirs
  | fuel + 1, dirs, path =>
    match dirs path with
    | some _ => dirs
    | none =>
      let dirs := Function.update dirs path (some ⟨[], []⟩)
      if path = Filepath.rootPath then dirs
      else
        modifyDir (ensureDirs k corpus root fuel dirs (Filepath.dir path)) (Filepath.dir path)
          fun parent =>
            { parent with subdirectory := addToSet parent.subdirectory (k.uriString corpus root path) }

/-- `Map.ensureDir`: the map with the directory `path` of `corpus`/`root` made; the
directory `ensureDir` returns is the reply at `path`. -/
def ensureDir (k : Kytheuri) (m : Map) (corpus root path : Bytes) : Map :=
  let (m, dirs) := ensureCorpusRoot m corpus root
  m.setDirs corpus root (ensureDirs k corpus root (path.length + 1) dirs path)

/-- `Map.AddFile`. -/
def addFile (k : Kytheuri) (m : Map) (file : VName) : Map :=
  let ticket := k.toString file
  let path := Filepath.join [Filepath.rootPath, file.path]
  let m := ensureDir k m file.corpus file.root (Filepath.dir path)
  m.setDirs file.corpus file.root
    (modifyDir (m.dirsAt file.corpus file.root) (Filepath.dir path) fun dir =>
      { dir with file := addToSet dir.file ticket })

/-- `Map.Directory`. -/
def directory (m : Map) (req : DirectoryRequest) : Option DirectoryReply :=
  match m.M req.corpus with
  | none => none
  | some roots =>
    match roots req.root with
    | none => none
    | some dirs => dirs req.path

/-- The map after `AddFile` of each of `files` in turn on `NewMap()`. -/
def addFiles (k : Kytheuri) (files : List VName) : Map :=
  files.foldl (addFile k) newMap

/-- The directory `AddFile` files `file` in: `Dir(Join("/", file.Path))`. -/
def fileDir (file : VName) : Bytes :=
  Filepath.dir (Filepath.join [Filepath.rootPath, file.path])

/-- `d` is in the tree of `corpus`/`root` for `files`: it is the directory of one of their
files of that corpus root, or `Dir` reaches it from one. -/
def InTree (files : List VName) (corpus root d : Bytes) : Prop :=
  ∃ f ∈ files, f.corpus = corpus ∧ f.root = root ∧ ∃ n, Filepath.dir^[n] (fileDir f) = d

/-! ### Sets, replies and maps -/

theorem mem_addToSet {strs : List Bytes} {str s : Bytes} :
  s ∈ addToSet strs str ↔ s ∈ strs ∨ s = str
  := by
  unfold addToSet
  split <;> simp_all [or_iff_left_of_imp]

theorem nodup_addToSet {strs : List Bytes} (h : strs.Nodup) (str : Bytes) :
  (addToSet strs str).Nodup
  := by
  unfold addToSet
  split
  · exact h
  · next hstr =>
    rw [← List.concat_eq_append]
    exact h.concat hstr

section Dirs

variable {dirs : Dirs} {p d : Bytes}

@[simp]
theorem modifyDir_self (f : DirectoryReply → DirectoryReply) :
  modifyDir dirs p f p = (dirs p).map f
  := Function.update_same _ _ _

theorem modifyDir_of_ne (h : d ≠ p) (f : DirectoryReply → DirectoryReply) :
  modifyDir dirs p f d = dirs d
  := Function.update_noteq h _ _

@[simp]
theorem isSome_modifyDir (f : DirectoryReply → DirectoryReply) :
  (modifyDir dirs p f d).isSome = (dirs d).isSome
  := by
  by_cases h : d = p
  · subst h
    simp
  · rw [modifyDir_of_ne h]

theorem modifyDir_update_of_ne (h : d ≠ p) (v : Option DirectoryReply)
    (f : DirectoryReply → DirectoryReply) :
  modifyDir (Function.update dirs p v) d f = Function.update (modifyDir dirs d f) p v
  := by
  rw [modifyDir, modifyDir, Function.update_noteq h, Function.update_comm h]

/-- A write that keeps the file list keeps every reply's file list. -/
theorem file_of_modifyDir_eq_some {f : DirectoryReply → DirectoryReply} {reply : DirectoryReply}
    (h : modifyDir dirs p f d = some reply) (hf : ∀ r, (f r).file = r.file) :
  ∃ r, dirs d = some r ∧ reply.file = r.file
  := by
  by_cases hd : d = p
  · subst hd
    rw [modifyDir_self, Option.map_eq_some'] at h
    obtain ⟨r, hr, rfl⟩ := h
    exact ⟨r, hr, hf r⟩
  · exact ⟨reply, (modifyDir_of_ne hd f).symm.trans h, rfl⟩

theorem isSome_update_some_iff {v : DirectoryReply} :
  (Function.update dirs p (some v) d).isSome ↔ d = p ∨ (dirs d).isSome
  := by
  by_cases h : d = p
  · subst h
    simp
  · simp [Function.update_noteq h, h]

end Dirs

theorem dirsOf_setDirs (m : Map) (corpus root : Bytes) (dirs : Dirs) (c r : Bytes) :
  (m.setDirs corpus root dirs).dirsOf c r = if c = corpus ∧ r = root then some dirs else m.dirsOf c r
  := by
  by_cases hc : c = corpus
  · subst hc
    by_cases hr : r = root
    · subst hr
      simp [Map.setDirs, Map.dirsOf]
    · cases h : m.M c <;> simp [Map.setDirs, Map.dirsOf, h, hr, Function.update_noteq]
  · simp [Map.setDirs, Map.dirsOf, hc, Function.update_noteq]

theorem dirsAt_setDirs (m : Map) (corpus root : Bytes) (dirs : Dirs) (c r : Bytes) :
  (m.setDirs corpus root dirs).dirsAt c r = if c = corpus ∧ r = root then dirs else m.dirsAt c r
  := by
  rw [Map.dirsAt, dirsOf_setDirs]
  split <;> rfl

theorem directory_eq (m : Map) (req : DirectoryRequest) :
  directory m req = m.dirsAt req.corpus req.root req.path
  := by
  unfold directory Map.dirsAt Map.dirsOf
  split <;> simp_all
  split <;> simp_all

/-- What `addFile` does to the directories of each corpus root. -/
theorem dirsOf_addFile (k : Kytheuri) (m : Map) (file : VName) (c r : Bytes) :
  (addFile k m file).dirsOf c r =
    if c = file.corpus ∧ r = file.root then
      some (modifyDir (ensureDirs k file.corpus file.root ((fileDir file).length + 1)
        (m.dirsAt file.corpus file.root) (fileDir file)) (fileDir file) fun dir =>
          { dir with file := addToSet dir.file (k.toString file) })
    else m.dirsOf c r
  := by
  simp only [addFile, ensureDir, ensureCorpusRoot, dirsOf_setDirs, dirsAt_setDirs, fileDir]
  split <;> simp_all

/-! ### Trees -/

section Tree

variable {k : Kytheuri} {corpus root : Bytes}

/-- The directories of `corpus`/`root` form a tree: the parent of each is there too, and its
subdirectory list names exactly its children other than "/", each once. -/
structure IsTree (k : Kytheuri) (corpus root : Bytes) (dirs : Dirs) : Prop where
  parent : ∀ d, (dirs d).isSome → (dirs (Filepath.dir d)).isSome
  subdirectory : ∀ d reply, dirs d = some reply → reply.subdirectory.Nodup ∧
    ∀ u, u ∈ reply.subdirectory ↔ ∃ d', (dirs d').isSome ∧ d' ≠ Filepath.rootPath ∧
      Filepath.dir d' = d ∧ k.uriString corpus root d' = u

theorem isTree_empty :
  IsTree k corpus root fun _ => none
  := ⟨by simp, by simp⟩

theorem IsTree.iterate_dir {dirs : Dirs} (h : IsTree k corpus root dirs) {d : Bytes}
    (hd : (dirs d).isSome) (n : Nat) :
  (dirs (Filepath.dir^[n] d)).isSome
  := by
  induction n with
  | zero => exact hd
  | succ n ih => rw [Function.iterate_succ_apply']; exact h.parent _ ih

/-- A write that keeps the subdirectory list keeps a tree. -/
theorem IsTree.modifyDir_of_subdirectory {dirs : Dirs} (h : IsTree k corpus root dirs) (p : Bytes)
    {f : DirectoryReply → DirectoryReply} (hf : ∀ r, (f r).subdirectory = r.subdirectory) :
  IsTree k corpus root (modifyDir dirs p f)
  where
  parent d hd := by
    simpa using h.parent d (by simpa using hd)
  subdirectory d reply hd := by
    simp only [isSome_modifyDir]
    by_cases hdp : d = p
    · subst hdp
      rw [modifyDir_self, Option.map_eq_some'] at hd
      obtain ⟨r, hr, rfl⟩ := hd
      rw [hf r]
      exact h.subdirectory d r hr
    · rw [modifyDir_of_ne hdp] at hd
      exact h.subdirectory d reply hd

/-- Making "/" where it is missing keeps a tree. -/
theorem IsTree.insert_root {dirs : Dirs} (h : IsTree k corpus root dirs)
    (hroot : dirs Filepath.rootPath = none) :
  IsTree k corpus root (Function.update dirs Filepath.rootPath (some ⟨[], []⟩))
  where
  parent d hd := by
    rw [isSome_update_some_iff] at hd ⊢
    rcases hd with rfl | hd
    · exact Or.inl Filepath.dir_rootPath
    · exact Or.inr (h.parent d hd)
  subdirectory d reply hd := by
    by_cases hdr : d = Filepath.rootPath
    · subst hdr
      rw [Function.update_same, Option.some.injEq] at hd
      subst hd
      refine ⟨List.nodup_nil, fun u => ⟨fun hu => absurd hu (List.not_mem_nil u), ?_⟩⟩
      rintro ⟨d', hd', hne, hdir, -⟩
      rw [isSome_update_some_iff, or_iff_right hne] at hd'
      simpa [hroot, hdir] using h.parent d' hd'
    · rw [Function.update_noteq hdr] at hd
      refine ⟨(h.subdirectory d reply hd).1, fun u => ?_⟩
      rw [(h.subdirectory d reply hd).2 u]
      refine exists_congr fun d' => and_congr_left fun hne => ?_
      rw [isSome_update_some_iff, or_iff_right hne.1]

/-- Making a missing directory `p` other than "/" whose parent is there, and linking it into
the parent, keeps a tree. -/
theorem IsTree.insert_child {dirs : Dirs} (h : IsTree k corpus root dirs) {p : Bytes}
    (hp : dirs p = none) (hq : (dirs (Filepath.dir p)).isSome) (hroot : p ≠ Filepath.rootPath) :
  IsTree k corpus root
    (modifyDir (Function.update dirs p (some ⟨[], []⟩)) (Filepath.dir p) fun parent =>
      { parent with subdirectory := addToSet parent.subdirectory (k.uriString corpus root p) })
  where
  parent d hd := by
    rw [isSome_modifyDir, isSome_update_some_iff] at hd ⊢
    rcases hd with rfl | hd
    · exact Or.inr hq
    · exact Or.inr (h.parent d hd)
  subdirectory d reply hd := by
    have hqp : Filepath.dir p ≠ p := fun heq => by simp [heq, hp] at hq
    have hchild : ∀ d', Filepath.dir d' = p → (dirs d').isSome = false := fun d' hd' => by
      simpa [hp, hd'] using mt (h.parent d')
    by_cases hdq : d = Filepath.dir p
    · subst hdq
      rw [modifyDir_self, Function.update_noteq hqp, Option.map_eq_some'] at hd
      obtain ⟨r, hr, rfl⟩ := hd
      refine ⟨nodup_addToSet (h.subdirectory _ r hr).1 _, fun u => ?_⟩
      simp only [mem_addToSet, (h.subdirectory _ r hr).2 u, isSome_modifyDir, isSome_update_some_iff]
      constructor
      · rintro (⟨d', hd', hne, hdir, rfl⟩ | rfl)
        · exact ⟨d', Or.inr hd', hne, hdir, rfl⟩
        · exact ⟨p, Or.inl rfl, hroot, rfl, rfl⟩
      · rintro ⟨d', rfl | hd', hne, hdir, rfl⟩
        · exact Or.inr rfl
        · exact Or.inl ⟨d', hd', hne, hdir, rfl⟩
    · rw [modifyDir_of_ne hdq] at hd
      simp only [isSome_modifyDir, isSome_update_some_iff]
      by_cases hdp : d = p
      · subst hdp
        rw [Function.update_same, Option.some.injEq] at hd
        subst hd
        refine ⟨List.nodup_nil, fun u => ⟨fun hu => absurd hu (List.not_mem_nil u), ?_⟩⟩
        rintro ⟨d', rfl | hd', -, hdir, -⟩
        · exact (hqp hdir).elim
        · simp [hchild d' hdir] at hd'
      · rw [Function.update_noteq hdp] at hd
        refine ⟨(h.subdirectory d reply hd).1, fun u => ?_⟩
        rw [(h.subdirectory d reply hd).2 u]
        refine exists_congr fun d' => ⟨fun ⟨hd', hne, hdir, hu⟩ => ⟨Or.inr hd', hne, hdir, hu⟩, ?_⟩
        rintro ⟨rfl | hd', hne, hdir, hu⟩
        · exact absurd hdir.symm hdq
        · exact ⟨hd', hne, hdir, hu⟩

end Tree

/-! ### ensureDir -/

section EnsureDir

variable {k : Kytheuri} {corpus root : Bytes}

/-- `ensureDirs` of `q` reads and writes only `q` and its ancestors. -/
theorem ensureDirs_update {p : Bytes} (v : Option DirectoryReply) (fuel : Nat) :
    ∀ {dirs : Dirs} {q : Bytes}, (∀ n, Filepath.dir^[n] q ≠ p) →
      ensureDirs k corpus root fuel (Function.update dirs p v) q =
        Function.update (ensureDirs k corpus root fuel dirs q) p v
  := by
  induction fuel with
  | zero => intro _ _ _; rfl
  | succ fuel ih =>
    intro dirs q hq
    have hqp : q ≠ p := hq 0
    have hdq : Filepath.dir q ≠ p := hq 1
    have hdir : ∀ n, Filepath.dir^[n] (Filepath.dir q) ≠ p := fun n => by
      simpa only [Function.iterate_succ_apply] using hq (n + 1)
    rw [ensureDirs, ensureDirs, Function.update_noteq hqp]
    cases dirs q with
    | some _ => rfl
    | none =>
      dsimp only
      rw [Function.update_comm hqp.symm v (some ⟨[], []⟩) dirs]
      by_cases hroot : q = Filepath.rootPath
      · simp only [if_pos hroot]
      · simp only [if_neg hroot, ih hdir, modifyDir_update_of_ne hdq]

/-- `dirs'` is `dirs` with the directories `new` added, with no files. -/
structure Grows (dirs dirs' : Dirs) (new : Bytes → Prop) : Prop where
  isSome_iff : ∀ d, (dirs' d).isSome ↔ (dirs d).isSome ∨ new d
  file : ∀ d reply, dirs' d = some reply → reply.file = ((dirs d).map (·.file)).getD []

theorem Grows.refl (dirs : Dirs) :
  Grows dirs dirs fun _ => False
  := ⟨by simp, fun d reply hd => by rw [hd]; rfl⟩

theorem Grows.update {dirs D : Dirs} {new : Bytes → Prop} (hg : Grows dirs D new) {p : Bytes}
    (hp : dirs p = none) :
  Grows dirs (Function.update D p (some ⟨[], []⟩)) fun d => d = p ∨ new d
  where
  isSome_iff d := by rw [isSome_update_some_iff, hg.isSome_iff, or_left_comm]
  file d reply hd := by
    by_cases hdp : d = p
    · subst hdp
      rw [Function.update_same, Option.some.injEq] at hd
      subst hd
      simp [hp]
    · rw [Function.update_noteq hdp] at hd
      exact hg.file d reply hd

theorem Grows.modifyDir {dirs D : Dirs} {new : Bytes → Prop} (hg : Grows dirs D new) (q : Bytes)
    {f : DirectoryReply → DirectoryReply} (hf : ∀ r, (f r).file = r.file) :
  Grows dirs (modifyDir D q f) new
  where
  isSome_iff d := by rw [isSome_modifyDir, hg.isSome_iff]
  file d reply hd := by
    obtain ⟨r, hr, hfile⟩ := file_of_modifyDir_eq_some hd hf
    rw [hfile, hg.file d r hr]

theorem Grows.congr {dirs D : Dirs} {new new' : Bytes → Prop} (hg : Grows dirs D new)
    (h : ∀ d, (dirs d).isSome ∨ new d ↔ (dirs d).isSome ∨ new' d) :
  Grows dirs D new'
  := ⟨fun d => (hg.isSome_iff d).trans (h d), hg.file⟩

theorem exists_iterate_iff (f : Bytes → Bytes) (x y : Bytes) :
  (∃ n, f^[n] x = y) ↔ x = y ∨ ∃ n, f^[n] (f x) = y
  := by
  constructor
  · rintro ⟨_ | n, rfl⟩
    · exact Or.inl rfl
    · exact Or.inr ⟨n, rfl⟩
  · rintro (rfl | ⟨n, rfl⟩)
    · exact ⟨0, rfl⟩
    · exact ⟨n + 1, rfl⟩

/-- Making the clean absolute path with elements `cs`, with enough fuel, keeps a tree a
tree and adds exactly the path and its ancestors, with no files. -/
theorem ensureDirs_spec (fuel : Nat) :
    ∀ {dirs : Dirs} {cs : List Bytes}, IsTree k corpus root dirs → (∀ e ∈ cs, Filepath.IsName e) →
      cs.length < fuel →
      IsTree k corpus root (ensureDirs k corpus root fuel dirs (Filepath.absPath cs)) ∧
      Grows dirs (ensureDirs k corpus root fuel dirs (Filepath.absPath cs))
        fun d => ∃ n, Filepath.dir^[n] (Filepath.absPath cs) = d
  := by
  induction fuel with
  | zero => intro _ _ _ _ hf; exact absurd hf (Nat.not_lt_zero _)
  | succ fuel ih =>
    intro dirs cs h hcs hf
    rcases hp : dirs (Filepath.absPath cs) with _ | r
    · by_cases hroot : Filepath.absPath cs = Filepath.rootPath
      · simp only [ensureDirs, hp, if_pos hroot]
        rw [hroot] at hp ⊢
        refine ⟨h.insert_root hp, ((Grows.refl dirs).update hp).congr fun d => ?_⟩
        simp only [Function.iterate_fixed Filepath.dir_rootPath, exists_const, or_false, eq_comm]
      · simp only [ensureDirs, hp, if_neg hroot]
        have hne : cs ≠ [] := fun h => hroot (by simp [h, Filepath.absPath, Filepath.rootPath])
        have hdir := Filepath.dir_absPath hcs
        have hanc := Filepath.iterate_dir_ne hcs hne
        obtain ⟨htree, hgrow⟩ := ih h (Filepath.isName_of_mem_dropLast hcs)
          (by have := List.length_pos.mpr hne; rw [List.length_dropLast]; omega)
        rw [← hdir] at htree hgrow
        rw [ensureDirs_update _ _ hanc]
        have hDp : ensureDirs k corpus root fuel dirs (Filepath.dir (Filepath.absPath cs))
            (Filepath.absPath cs) = none := by
          simpa [hp, hanc] using (hgrow.isSome_iff (Filepath.absPath cs)).not
        have hDq := (hgrow.isSome_iff _).mpr (Or.inr ⟨0, rfl⟩)
        refine ⟨htree.insert_child hDp hDq hroot,
          ((hgrow.update hp).modifyDir _ fun _ => ?_).congr fun d => ?_⟩
        · rfl
        · rw [exists_iterate_iff Filepath.dir (Filepath.absPath cs) d, eq_comm (a := d)]
    · simp only [ensureDirs, hp]
      refine ⟨h, (Grows.refl dirs).congr fun d => ⟨fun h' => .inl (h'.resolve_right id), ?_⟩⟩
      rintro (hd | ⟨n, rfl⟩)
      · exact .inl hd
      · exact .inl (h.iterate_dir (by simp [hp]) n)

end EnsureDir

end Kythe.FileTree
