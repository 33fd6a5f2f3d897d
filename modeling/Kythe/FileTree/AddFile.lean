import Kythe.FileTree.Map
import Mathlib.Data.List.Perm.Basic

/-!
# Every run of `AddFile`

`Holds k files m` says that the map `m` is what adding `files` to `NewMap()` should give, per
corpus root: the corpus root is there when one of the files is of it, its directories are the
files' directories and every directory `Dir` reaches from them, each directory's file list
names the tickets of its files once each, and the directories form a tree (`IsTree`).
`NewMap()` holds for no files, and `AddFile` of a file takes `Holds files` to
`Holds (files ++ [file])`, so the map after any run of `AddFile` calls holds for the files it
was given (`holds_addFiles`).  Answers of `Directory` therefore depend only on the set of
files added, up to the order of their lists, which is the order the tickets were first added.
-/

namespace Kythe.FileTree

variable {k : Kytheuri}

/-- `l` names the tickets of the files of `files` in the directory `d` of `corpus`/`root`,
each once. -/
def FilesIn (k : Kytheuri) (files : List VName) (corpus root d : Bytes) (l : List Bytes) : Prop :=
  l.Nodup ∧ ∀ t, t ∈ l ↔
    ∃ f ∈ files, f.corpus = corpus ∧ f.root = root ∧ fileDir f = d ∧ k.toString f = t

/-- The map `m` is what adding `files` to `NewMap()` should give. -/
structure Holds (k : Kytheuri) (files : List VName) (m : Map) : Prop where
  corpusRoot : ∀ c r, (m.dirsOf c r).isSome ↔ ∃ f ∈ files, f.corpus = c ∧ f.root = r
  tree : ∀ c r, IsTree k c r (m.dirsAt c r)
  isSome_iff : ∀ c r d, (m.dirsAt c r d).isSome ↔ InTree files c r d
  file : ∀ c r d, FilesIn k files c r d (((m.dirsAt c r d).map (·.file)).getD [])

/-! ### The directory of a file -/

/-- A file's directory is a clean absolute path. -/
theorem fileDir_eq (file : VName) :
  ∃ cs, (∀ e ∈ cs, Filepath.IsName e) ∧ fileDir file = Filepath.absPath cs
  := by
  obtain ⟨cs, hcs, hjoin⟩ := Filepath.join_root file.path
  exact ⟨cs.dropLast, Filepath.isName_of_mem_dropLast hcs,
    by rw [fileDir, hjoin, Filepath.dir_absPath hcs]⟩

theorem exists_mem_append_singleton {α : Type} {l : List α} {a : α} {P : α → Prop} :
  (∃ x ∈ l ++ [a], P x) ↔ (∃ x ∈ l, P x) ∨ P a
  := by
  simp [or_and_right, exists_or]

theorem inTree_append_singleton {files : List VName} {file : VName} {c r d : Bytes} :
  InTree (files ++ [file]) c r d ↔
    InTree files c r d ∨ file.corpus = c ∧ file.root = r ∧ ∃ n, Filepath.dir^[n] (fileDir file) = d
  := exists_mem_append_singleton

theorem inTree_congr {files files' : List VName} (h : ∀ f, f ∈ files' ↔ f ∈ files) (c r d : Bytes) :
  InTree files' c r d ↔ InTree files c r d
  := by
  simp only [InTree, h]

/-! ### One call -/

theorem dirsAt_addFile (m : Map) (file : VName) (c r : Bytes) :
  (addFile k m file).dirsAt c r =
    if c = file.corpus ∧ r = file.root then
      modifyDir (ensureDirs k file.corpus file.root ((fileDir file).length + 1)
        (m.dirsAt file.corpus file.root) (fileDir file)) (fileDir file) fun dir =>
          { dir with file := addToSet dir.file (k.toString file) }
    else m.dirsAt c r
  := by
  rw [Map.dirsAt, dirsOf_addFile]
  split <;> rfl

theorem Grows.getD_file {dirs dirs' : Dirs} {new : Bytes → Prop} (h : Grows dirs dirs' new)
    (d : Bytes) :
  ((dirs' d).map (·.file)).getD [] = ((dirs d).map (·.file)).getD []
  := by
  cases hd' : dirs' d with
  | some r => simp [h.file d r hd']
  | none =>
    have hd := (not_or.mp ((h.isSome_iff d).not.mp (by simp [hd']))).1
    simp [hd', Option.not_isSome_iff_eq_none.mp hd]

theorem holds_newMap :
  Holds k [] newMap
  where
  corpusRoot _ _ := by simp [newMap, Map.dirsOf]
  tree _ _ := isTree_empty
  isSome_iff _ _ _ := by simp [newMap, Map.dirsAt, Map.dirsOf, InTree]
  file _ _ _ := by simp [FilesIn, newMap, Map.dirsAt, Map.dirsOf]

/-- A directory's file list still names its files when the new file is elsewhere. -/
theorem FilesIn.append_of_not {files : List VName} {file : VName} {c r d : Bytes} {l : List Bytes}
    (h : FilesIn k files c r d l) (hn : ¬ (file.corpus = c ∧ file.root = r ∧ fileDir file = d)) :
  FilesIn k (files ++ [file]) c r d l
  := by
  refine ⟨h.1, fun t => ?_⟩
  rw [h.2 t, exists_mem_append_singleton]
  exact (or_iff_left fun ⟨hc, hr, hd, _⟩ => hn ⟨hc, hr, hd⟩).symm

/-- Adding the new file's ticket to its directory's list names the files of that directory. -/
theorem FilesIn.append_addToSet {files : List VName} {file : VName} {l : List Bytes}
    (h : FilesIn k files file.corpus file.root (fileDir file) l) :
  FilesIn k (files ++ [file]) file.corpus file.root (fileDir file) (addToSet l (k.toString file))
  := by
  refine ⟨nodup_addToSet h.1 _, fun t => ?_⟩
  rw [mem_addToSet, h.2 t, exists_mem_append_singleton]
  simp [eq_comm]

/-- `AddFile` of `file` takes a map that holds for `files` to one that holds for
`files ++ [file]`. -/
theorem holds_addFile {files : List VName} {m : Map} (h : Holds k files m) (file : VName) :
  Holds k (files ++ [file]) (addFile k m file)
  := by
  obtain ⟨cs, hcs, hfd⟩ := fileDir_eq file
  have hfuel : cs.length < (fileDir file).length + 1 := by
    have := Filepath.length_le_length_absPath hcs
    rw [hfd]
    omega
  obtain ⟨htree, hgrow⟩ := ensureDirs_spec _ (h.tree file.corpus file.root) hcs hfuel
  rw [← hfd] at htree hgrow
  constructor
  · intro c r
    rw [dirsOf_addFile, exists_mem_append_singleton]
    split
    · next hcr => simp [hcr]
    · next hcr => simp [h.corpusRoot, hcr, eq_comm, and_comm]
  · intro c r
    rw [dirsAt_addFile]
    split
    · next hcr =>
      obtain ⟨rfl, rfl⟩ := hcr
      exact htree.modifyDir_of_subdirectory _ fun _ => rfl
    · exact h.tree c r
  · intro c r d
    rw [dirsAt_addFile, inTree_append_singleton]
    split
    · next hcr =>
      obtain ⟨rfl, rfl⟩ := hcr
      simp [hgrow.isSome_iff, h.isSome_iff]
    · next hcr =>
      rw [h.isSome_iff]
      exact (or_iff_left fun ⟨hc, hr, _⟩ => hcr ⟨hc.symm, hr.symm⟩).symm
  · intro c r d
    rw [dirsAt_addFile]
    split
    · next hcr =>
      obtain ⟨rfl, rfl⟩ := hcr
      by_cases hd : d = fileDir file
      · subst hd
        obtain ⟨rE, hrE⟩ := Option.isSome_iff_exists.mp
          ((hgrow.isSome_iff (fileDir file)).mpr (Or.inr ⟨0, rfl⟩))
        have hfileE : rE.file =
            ((m.dirsAt file.corpus file.root (fileDir file)).map (·.file)).getD [] := by
          simpa [hrE] using hgrow.getD_file (fileDir file)
        rw [modifyDir_self, hrE]
        simp only [Option.map_some', Option.getD_some, hfileE]
        exact (h.file _ _ _).append_addToSet
      · rw [modifyDir_of_ne hd, hgrow.getD_file d]
        exact (h.file _ _ d).append_of_not fun ⟨_, _, hd'⟩ => hd hd'.symm
    · next hcr =>
      exact (h.file c r d).append_of_not fun ⟨hc, hr, _⟩ => hcr ⟨hc.symm, hr.symm⟩

/-! ### Every run -/

theorem holds_foldl_addFile :
    ∀ (fs files : List VName) (m : Map), Holds k files m →
      Holds k (files ++ fs) (fs.foldl (addFile k) m)
  | [], files, m, h => by simpa using h
  | f :: fs, files, m, h => by
    rw [List.foldl_cons, ← List.singleton_append, ← List.append_assoc]
    exact holds_foldl_addFile fs _ _ (holds_addFile h f)

/-- The map after any run of `AddFile` calls on `NewMap()` holds for the files added. -/
theorem holds_addFiles (k : Kytheuri) (files : List VName) :
  Holds k files (addFiles k files)
  := by
  simpa using holds_foldl_addFile files [] newMap (holds_newMap : Holds k [] newMap)

/-! ### What `Directory` answers -/

section Directory

variable {files : List VName} {m : Map}

theorem Holds.directory_isSome (h : Holds k files m) (c r d : Bytes) :
  (directory m ⟨c, r, d⟩).isSome ↔ InTree files c r d
  := by
  rw [directory_eq]
  exact h.isSome_iff c r d

/-- A directory's reply names the tickets of its files, and those of its subdirectories in
the tree, each once. -/
theorem Holds.directory_reply (h : Holds k files m) {c r d : Bytes} {reply : DirectoryReply}
    (hreply : directory m ⟨c, r, d⟩ = some reply) :
  reply.file.Nodup ∧
    (∀ t, t ∈ reply.file ↔
      ∃ f ∈ files, f.corpus = c ∧ f.root = r ∧ fileDir f = d ∧ k.toString f = t) ∧
    reply.subdirectory.Nodup ∧
    (∀ u, u ∈ reply.subdirectory ↔ ∃ d', InTree files c r d' ∧ d' ≠ Filepath.rootPath ∧
      Filepath.dir d' = d ∧ k.uriString c r d' = u)
  := by
  rw [directory_eq] at hreply
  have hfile := h.file c r d
  rw [hreply] at hfile
  obtain ⟨hnd, hmem⟩ := (h.tree c r).subdirectory d reply hreply
  refine ⟨hfile.1, hfile.2, hnd, fun u => ?_⟩
  simp only [hmem u, h.isSome_iff]

/-- Two maps that hold for lists of the same files answer `Directory` alike, up to the order
of the lists. -/
theorem Holds.directory_rel {files' : List VName} {m' : Map} (h : Holds k files m)
    (h' : Holds k files' m') (hfiles : ∀ f, f ∈ files' ↔ f ∈ files) (req : DirectoryRequest) :
  Option.Rel (fun a b => a.file.Perm b.file ∧ a.subdirectory.Perm b.subdirectory)
    (directory m req) (directory m' req)
  := by
  obtain ⟨c, r, d⟩ := req
  have hsome : (directory m ⟨c, r, d⟩).isSome ↔ (directory m' ⟨c, r, d⟩).isSome := by
    rw [h.directory_isSome, h'.directory_isSome, inTree_congr hfiles]
  cases ha : directory m ⟨c, r, d⟩ with
  | none =>
    cases hb : directory m' ⟨c, r, d⟩ with
    | none => exact Option.Rel.none
    | some b => simp [ha, hb] at hsome
  | some a =>
    cases hb : directory m' ⟨c, r, d⟩ with
    | none => simp [ha, hb] at hsome
    | some b =>
      obtain ⟨hnfa, hfa, hnsa, hsa⟩ := h.directory_reply ha
      obtain ⟨hnfb, hfb, hnsb, hsb⟩ := h'.directory_reply hb
      refine Option.Rel.some ⟨(List.perm_ext_iff_of_nodup hnfa hnfb).mpr fun t => ?_,
        (List.perm_ext_iff_of_nodup hnsa hnsb).mpr fun u => ?_⟩
      · simp only [hfa t, hfb t, hfiles]
      · simp only [hsa u, hsb u, inTree_congr hfiles]

end Directory

/-- After any run of `AddFile` calls on `NewMap()`: `M[c][r]` exists exactly when a file of
`c`/`r` was added; `M[c][r][d]` exists exactly when `d` is in the tree of the files of
`c`/`r`; its file list names the tickets of the files in `d`, and its subdirectory list the
tickets of the directories of the tree whose parent is `d`, each once; and so a second run
with the same set of files answers `Directory` with the same lists up to their order. -/
theorem addFiles_directory (k : Kytheuri) (files : List VName) :
  (∀ c r, ((addFiles k files).dirsOf c r).isSome ↔ ∃ f ∈ files, f.corpus = c ∧ f.root = r) ∧
  (∀ c r d, ((directory (addFiles k files) ⟨c, r, d⟩).isSome ↔ InTree files c r d) ∧
    ∀ reply, directory (addFiles k files) ⟨c, r, d⟩ = some reply →
      reply.file.Nodup ∧
      (∀ t, t ∈ reply.file ↔
        ∃ f ∈ files, f.corpus = c ∧ f.root = r ∧ fileDir f = d ∧ k.toString f = t) ∧
      reply.subdirectory.Nodup ∧
      (∀ u, u ∈ reply.subdirectory ↔ ∃ d', InTree files c r d' ∧ d' ≠ Filepath.rootPath ∧
        Filepath.dir d' = d ∧ k.uriString c r d' = u)) ∧
  ∀ files', (∀ f, f ∈ files' ↔ f ∈ files) → ∀ req,
    Option.Rel (fun a b => a.file.Perm b.file ∧ a.subdirectory.Perm b.subdirectory)
      (directory (addFiles k files) req) (directory (addFiles k files') req)
  := by
  have h := holds_addFiles k files
  exact ⟨h.corpusRoot, fun c r d => ⟨h.directory_isSome c r d, fun _ => h.directory_reply⟩,
    fun files' hfiles => h.directory_rel (holds_addFiles k files') hfiles⟩

end Kythe.FileTree
