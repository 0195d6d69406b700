import YontiOs.Fs.View

/-!
# Fs/Effect — what a call can do

Each method that takes `&mut self` is inverted here once: it fails and leaves the file system as it
was, or it hits its *target* — the conditions under which the code reaches its write — and grafts
one inode.  Everything proved about histories goes through these lemmas.
-/

namespace YontiOs.Fs

namespace FileSystem

variable {fs : FileSystem} {path parent name d : Name} {cs : List (Name × Inode)}
  {newInode : Name → Inode} {victim : Inode} {data buf : List UInt8}

/-! ## Creation -/

/-- `create_file` and `create_dir` reach their write: into directory `d` with children `cs`, at
`parent`, under `name`. -/
structure CreateTarget (fs : FileSystem) (path parent name d : Name) (cs : List (Name × Inode)) :
    Prop where
  resolve : resolvePath path = .ok (parent, name)
  room : fs.inodeCount < maxTotalInodes
  depth : (splitPath parent).length ≤ maxPathDepth
  walk : fs.root.walk (splitPath parent) = some (.mk d (.directory cs))
  fresh : BTreeMap.get name cs = none
  width : cs.length < maxDirChildren

/-- The file system after a creation. -/
def created (fs : FileSystem) (parent name d : Name) (cs : List (Name × Inode)) (x : Inode) :
    FileSystem :=
  ⟨fs.root.graft (splitPath parent) (.mk d (.directory (BTreeMap.insert name x cs))),
    fs.inodeCount + 1⟩

theorem create_of_target (h : CreateTarget fs path parent name d cs) :
    fs.create newInode path = (.ok (), fs.created parent name d cs (newInode name)) := by
  obtain ⟨dir, hdir, hinode⟩ := findDirMut_of_walk h.depth h.walk
  obtain ⟨-, hw, hput⟩ := findDirMut_eq_ok hdir
  have hnm : dir.inode.name = d := by rw [hinode]; rfl
  have hcs : dir.children = cs := by
    have := dir.kind_eq
    rw [hinode] at this
    exact (InodeKind.directory.inj this).symm
  have hfresh : dir.inode.findChild name = none := by
    rw [hinode, Inode.findChild_directory]
    exact h.fresh
  have hwidth : ¬ dirChildCount dir.inode ≥ maxDirChildren := by
    rw [hinode]
    exact not_le.mpr h.width
  simp only [create, if_neg (not_le.mpr h.room), h.resolve, hdir, hfresh, Option.isSome_none,
    Bool.false_eq_true, if_false, if_neg hwidth, hput, hnm, hcs, created]

theorem create_cases (newInode : Name → Inode) (fs : FileSystem) (path : Name) :
    (∃ e, fs.create newInode path = (.error e, fs)) ∨
      ∃ parent name d cs, CreateTarget fs path parent name d cs := by
  by_cases hroom : fs.inodeCount ≥ maxTotalInodes
  · exact Or.inl ⟨.tooManyInodes, by simp only [create, if_pos hroom]⟩
  cases hres : resolvePath path with
  | error e => exact Or.inl ⟨e, by simp only [create, if_neg hroom, hres]⟩
  | ok pn =>
    obtain ⟨parent, name⟩ := pn
    cases hdir : findDirMut fs.root parent with
    | error e => exact Or.inl ⟨e, by simp only [create, if_neg hroom, hres, hdir]⟩
    | ok dir =>
      obtain ⟨hlen, hw, hput⟩ := findDirMut_eq_ok hdir
      have hfind : dir.inode.findChild name = BTreeMap.get name dir.children := by
        rw [Inode.findChild, dir.kind_eq]
      have hcount : dirChildCount dir.inode = dir.children.length := by
        rw [dirChildCount, dir.kind_eq]
      by_cases hsome : (dir.inode.findChild name).isSome
      · exact Or.inl ⟨.alreadyExists, by
          simp only [create, if_neg hroom, hres, hdir, if_pos hsome]⟩
      by_cases hwide : dirChildCount dir.inode ≥ maxDirChildren
      · exact Or.inl ⟨.tooManyChildren, by
          simp only [create, if_neg hroom, hres, hdir, if_neg hsome, if_pos hwide]⟩
      · refine Or.inr ⟨parent, name, _, _, hres, not_le.mp hroom, hlen, hw, ?_, ?_⟩
        · rw [← hfind]
          exact Option.not_isSome_iff_eq_none.mp hsome
        · rw [← hcount]
          exact not_le.mp hwide

/-! ## Removal -/

/-- `remove` reaches its write: it takes `victim`, the child `name`, out of directory `d`. -/
structure RemoveTarget (fs : FileSystem) (path parent name d : Name) (cs : List (Name × Inode))
    (victim : Inode) : Prop where
  resolve : resolvePath path = .ok (parent, name)
  depth : (splitPath parent).length ≤ maxPathDepth
  walk : fs.root.walk (splitPath parent) = some (.mk d (.directory cs))
  hit : BTreeMap.get name cs = some victim

/-- The file system after a removal. -/
def removed (fs : FileSystem) (parent name d : Name) (cs : List (Name × Inode)) : FileSystem :=
  ⟨fs.root.graft (splitPath parent) (.mk d (.directory (BTreeMap.remove name cs))),
    fs.inodeCount - 1⟩

theorem remove_of_target (h : RemoveTarget fs path parent name d cs victim) :
    fs.remove path = (.ok (), fs.removed parent name d cs) := by
  obtain ⟨dir, hdir, hinode⟩ := findDirMut_of_walk h.depth h.walk
  obtain ⟨-, -, hput⟩ := findDirMut_eq_ok hdir
  have hrem : dir.inode.removeChild name
      = (.ok victim, .mk d (.directory (BTreeMap.remove name cs))) := by
    rw [hinode]
    simp only [Inode.removeChild, Inode.kind, h.hit, Inode.name]
  simp only [remove, h.resolve, hdir, hrem, hput, removed]

theorem remove_cases (hwf : fs.root.Wf) (path : Name) :
    (∃ e, fs.remove path = (.error e, fs)) ∨
      ∃ parent name d cs victim, RemoveTarget fs path parent name d cs victim := by
  cases hres : resolvePath path with
  | error e => exact Or.inl ⟨e, by simp only [remove, hres]⟩
  | ok pn =>
    obtain ⟨parent, name⟩ := pn
    cases hdir : findDirMut fs.root parent with
    | error e => exact Or.inl ⟨e, by simp only [remove, hres, hdir]⟩
    | ok dir =>
      obtain ⟨hlen, hw, hput⟩ := findDirMut_eq_ok hdir
      cases hget : BTreeMap.get name dir.children with
      | some victim => exact Or.inr ⟨parent, name, _, _, victim, hres, hlen, hw, hget⟩
      | none =>
        refine Or.inl ⟨.notFound, ?_⟩
        have hinode : dir.inode = .mk dir.inode.name (.directory dir.children) := by
          rw [← dir.kind_eq]
          cases dir.inode
          rfl
        have hrem : dir.inode.removeChild name = (.error .notFound, dir.inode) := by
          rw [Inode.removeChild, dir.kind_eq]
          simp only [hget]
        have hself : dir.put dir.inode = fs.root := by
          rw [hput]
          exact Inode.graft_self hwf (hw.trans (congrArg some hinode.symm))
        simp only [remove, hres, hdir, hrem, hself]

/-! ## Writing -/

/-- The path leads to a file, named `d` and holding `buf`. -/
structure WriteTarget (fs : FileSystem) (path d : Name) (buf : List UInt8) : Prop where
  depth : (splitPath path).length ≤ maxPathDepth
  walk : fs.root.walk (splitPath path) = some (.mk d (.file buf))

/-- The file system after the file at `path` got new contents. -/
def written (fs : FileSystem) (path d : Name) (data : List UInt8) : FileSystem :=
  { fs with root := fs.root.graft (splitPath path) (.mk d (.file data)) }

theorem findInodeMut_of_target (h : WriteTarget fs path d buf) :
    findInodeMut fs.root path = .ok ⟨.mk d (.file buf), fs.root.graft (splitPath path)⟩ := by
  rw [findInodeMut_eq, if_neg (not_lt.mpr h.depth), h.walk]
  rfl

theorem writeFile_of_target (h : WriteTarget fs path d buf) (hlen : data.length ≤ maxFileSize) :
    fs.writeFile path data = (.ok (), fs.written path d data) := by
  simp only [writeFile, if_neg (not_lt.mpr hlen), findInodeMut_of_target h, Inode.write, Inode.kind,
    Inode.name, written]

theorem writeFile_cases (hwf : fs.root.Wf) (path : Name) (data : List UInt8) :
    (∃ e, fs.writeFile path data = (.error e, fs)) ∨
      ∃ d buf, WriteTarget fs path d buf ∧ data.length ≤ maxFileSize := by
  by_cases hlen : data.length > maxFileSize
  · exact Or.inl ⟨.fileTooLarge, by simp only [writeFile, if_pos hlen]⟩
  by_cases hdeep : (splitPath path).length > maxPathDepth
  · exact Or.inl ⟨.pathTooDeep, by
      simp only [writeFile, if_neg hlen, findInodeMut_eq, if_pos hdeep]⟩
  cases hw : fs.root.walk (splitPath path) with
  | none =>
    exact Or.inl ⟨.notFound, by
      simp only [writeFile, if_neg hlen, findInodeMut_eq, if_neg hdeep, hw, Option.elim_none]⟩
  | some i =>
    obtain ⟨d, buf | cs⟩ := i
    · exact Or.inr ⟨d, buf, ⟨not_lt.mp hdeep, hw⟩, not_lt.mp hlen⟩
    · refine Or.inl ⟨.notAFile, ?_⟩
      simp only [writeFile, if_neg hlen, findInodeMut_eq, if_neg hdeep, hw, Option.elim_some,
        Inode.write, Inode.kind, Inode.graft_self hwf hw]

theorem appendFile_of_target (h : WriteTarget fs path d buf)
    (hlen : buf.length + data.length ≤ maxFileSize) :
    fs.appendFile path data = (.ok (), fs.written path d (buf ++ data)) := by
  have hguard : ¬ min (buf.length + data.length) (2 ^ 64 - 1) > maxFileSize := by omega
  simp only [appendFile, findInodeMut_of_target h, Inode.append, Inode.kind, Inode.name,
    if_neg hguard, written]

theorem appendFile_cases (fs : FileSystem) (path : Name) (data : List UInt8) :
    (∃ e, fs.appendFile path data = (.error e, fs)) ∨
      ∃ d buf, WriteTarget fs path d buf ∧ buf.length + data.length ≤ maxFileSize := by
  by_cases hdeep : (splitPath path).length > maxPathDepth
  · exact Or.inl ⟨.pathTooDeep, by simp only [appendFile, findInodeMut_eq, if_pos hdeep]⟩
  cases hw : fs.root.walk (splitPath path) with
  | none =>
    exact Or.inl ⟨.notFound, by
      simp only [appendFile, findInodeMut_eq, if_neg hdeep, hw, Option.elim_none]⟩
  | some i =>
    obtain ⟨d, buf | cs⟩ := i
    · by_cases hbig : min (buf.length + data.length) (2 ^ 64 - 1) > maxFileSize
      · exact Or.inl ⟨.fileTooLarge, by
          simp only [appendFile, findInodeMut_eq, if_neg hdeep, hw, Option.elim_some, Inode.kind,
            if_pos hbig]⟩
      · have hmax : maxFileSize < 2 ^ 64 - 1 := by decide
        exact Or.inr ⟨d, buf, ⟨not_lt.mp hdeep, hw⟩, by omega⟩
    · exact Or.inl ⟨.notAFile, by
        simp only [appendFile, findInodeMut_eq, if_neg hdeep, hw, Option.elim_some, Inode.kind]⟩

/-! ## One call -/

/-- **What a call can do**: nothing to the file system, or reach one of the three writes. -/
theorem exec_cases (hwf : fs.root.Wf) (op : Op) : (fs.exec op).2 = fs ∨
    (∃ path parent name d cs x, (op = .createFile path ∧ x = Inode.newFile name ∨
        op = .createDir path ∧ x = Inode.newDirectory name) ∧
      CreateTarget fs path parent name d cs ∧ (fs.exec op).2 = fs.created parent name d cs x) ∨
    (∃ path parent name d cs victim, RemoveTarget fs path parent name d cs victim ∧
      (fs.exec op).2 = fs.removed parent name d cs) ∨
    ∃ path d buf data, WriteTarget fs path d buf ∧ data.length ≤ maxFileSize ∧
      (fs.exec op).2 = fs.written path d data := by
  cases op with
  | createFile path =>
    rcases create_cases Inode.newFile fs path with ⟨e, he⟩ | ⟨parent, name, d, cs, ht⟩
    · exact .inl (congrArg Prod.snd he)
    · exact .inr (.inl ⟨path, parent, name, d, cs, _, .inl ⟨rfl, rfl⟩, ht,
        congrArg Prod.snd (create_of_target ht)⟩)
  | createDir path =>
    rcases create_cases Inode.newDirectory fs path with ⟨e, he⟩ | ⟨parent, name, d, cs, ht⟩
    · exact .inl (congrArg Prod.snd he)
    · exact .inr (.inl ⟨path, parent, name, d, cs, _, .inr ⟨rfl, rfl⟩, ht,
        congrArg Prod.snd (create_of_target ht)⟩)
  | writeFile path data =>
    rcases writeFile_cases hwf path data with ⟨e, he⟩ | ⟨d, buf, ht, hlen⟩
    · exact .inl (congrArg Prod.snd he)
    · exact .inr (.inr (.inr ⟨path, d, buf, data, ht, hlen,
        congrArg Prod.snd (writeFile_of_target ht hlen)⟩))
  | appendFile path data =>
    rcases appendFile_cases fs path data with ⟨e, he⟩ | ⟨d, buf, ht, hlen⟩
    · exact .inl (congrArg Prod.snd he)
    · exact .inr (.inr (.inr ⟨path, d, buf, buf ++ data, ht, by rwa [List.length_append],
        congrArg Prod.snd (appendFile_of_target ht hlen)⟩))
  | remove path =>
    rcases remove_cases hwf path with ⟨e, he⟩ | ⟨parent, name, d, cs, victim, ht⟩
    · exact .inl (congrArg Prod.snd he)
    · exact .inr (.inr (.inl ⟨path, parent, name, d, cs, victim, ht,
        congrArg Prod.snd (remove_of_target ht)⟩))

/-! ## Every reachable tree is well formed -/

theorem wf_newFile (n : Name) : (Inode.newFile n).Wf := .file

theorem wf_newDirectory (n : Name) : (Inode.newDirectory n).Wf :=
  .directory List.Pairwise.nil fun _ he => absurd he List.not_mem_nil

/-- **A call keeps the tree well formed.** -/
theorem exec_wf (hwf : fs.root.Wf) (op : Op) : (fs.exec op).2.root.Wf := by
  rcases exec_cases hwf op with he | ⟨_, _, name, _, _, x, hx, ht, he⟩ |
    ⟨_, _, _, _, _, _, ht, he⟩ | ⟨_, _, _, _, ht, -, he⟩ <;> rw [he]
  · exact hwf
  · have hnew : x.Wf := by
      rcases hx with ⟨-, rfl⟩ | ⟨-, rfl⟩
      · exact wf_newFile name
      · exact wf_newDirectory name
    exact hwf.graft ht.walk ((hwf.walk ht.walk).insert hnew)
  · exact hwf.graft ht.walk (hwf.walk ht.walk).remove
  · exact hwf.graft ht.walk .file

theorem run_wf (ops : List Op) : (run ops).root.Wf := by
  induction ops using List.reverseRecOn with
  | nil => exact wf_newDirectory _
  | append_singleton ops op ih =>
    rw [run_concat]
    exact exec_wf ih op

end FileSystem

end YontiOs.Fs
