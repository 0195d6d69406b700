import YontiOs.Fs.Effect

/-!
# Fs/Refinement — the tree refines a flat map of paths

The abstract file system is a `View`: a partial map from lists of names to files and directories,
with no tree, no references and one notion of a path.  `Refines fs path` says that every method,
called with a path of 1 to 16 components, acts on the view of `fs` as its flat counterpart does;
`run_refines` proves it of every reachable file system.

The two parsers meet in `resolvePath_of_ne_nil`: creation and removal see the parent and the last
name of the path that reads and writes see whole.
-/

namespace YontiOs.Fs

/-! ## The flat file system -/

namespace View

/-- Creation is possible at `p`, with `count` inodes in use. -/
structure CanCreate (v : View) (count : ℕ) (p : List Name) : Prop where
  room : count < maxTotalInodes
  legal : ∀ n ∈ p.getLast?, ¬ IsDots n
  parent : v p.dropLast = some .dir
  fresh : v p = none
  width : {n | v (p.dropLast ++ [n]) ≠ none}.ncard < maxDirChildren

/-- The view without `p` and everything below it. -/
def erase (v : View) (p : List Name) : View := fun q => if p <+: q then none else v q

/-- Reading the file at `p`. -/
def read (v : View) (p : List Name) : Except FsError (List UInt8) :=
  match v p with
  | some (.file data) => .ok data
  | some .dir => .error .notAFile
  | none => .error .notFound

/-- `names` lists the children of `p`, each once and in order. -/
structure IsListing (v : View) (p : List Name) (names : List Name) : Prop where
  sorted : names.Pairwise (· < ·)
  mem_iff : ∀ n, n ∈ names ↔ v (p ++ [n]) ≠ none

/-- A set of names has one listing. -/
theorem IsListing.unique {v : View} {p : List Name} {l l' : List Name}
    (h : v.IsListing p l) (h' : v.IsListing p l') : l = l' := by
  refine List.Perm.eq_of_pairwise' (h.sorted.imp le_of_lt) (h'.sorted.imp le_of_lt) ?_
  refine (List.perm_ext_iff_of_nodup (h.sorted.imp ne_of_lt) (h'.sorted.imp ne_of_lt)).mpr ?_
  exact fun n => (h.mem_iff n).trans (h'.mem_iff n).symm

end View

namespace FileSystem

def view (fs : FileSystem) : View := fs.root.view

/-- **The methods called with `path` act on the view of `fs`** as on a flat map. -/
structure Refines (fs : FileSystem) (path : Name) : Prop where
  createFile_ok : (fs.createFile path).1 = .ok () ↔
    fs.view.CanCreate fs.inodeCount (splitPath path)
  createFile_view : (fs.createFile path).1 = .ok () →
    (fs.createFile path).2.view = Function.update fs.view (splitPath path) (some (.file []))
  createDir_ok : (fs.createDir path).1 = .ok () ↔
    fs.view.CanCreate fs.inodeCount (splitPath path)
  createDir_view : (fs.createDir path).1 = .ok () →
    (fs.createDir path).2.view = Function.update fs.view (splitPath path) (some .dir)
  writeFile_view : ∀ data, (fs.writeFile path data).1 = .ok () →
    (∃ old, fs.view (splitPath path) = some (.file old)) ∧
      (fs.writeFile path data).2.view
        = Function.update fs.view (splitPath path) (some (.file data))
  appendFile_view : ∀ data, (fs.appendFile path data).1 = .ok () →
    ∃ old, fs.view (splitPath path) = some (.file old) ∧
      (fs.appendFile path data).2.view
        = Function.update fs.view (splitPath path) (some (.file (old ++ data)))
  remove_view : (fs.remove path).1 = .ok () →
    fs.view (splitPath path) ≠ none ∧ (fs.remove path).2.view = fs.view.erase (splitPath path)
  readFile_eq : fs.readFile path = fs.view.read (splitPath path)
  listDir_ok : ∀ names, fs.listDir path = .ok names ↔
    fs.view (splitPath path) = some .dir ∧ fs.view.IsListing (splitPath path) names
  listDir_file : ∀ data, fs.view (splitPath path) = some (.file data) →
    fs.listDir path = .error .notADirectory
  listDir_none : fs.view (splitPath path) = none → fs.listDir path = .error .notFound
  exists_eq : fs.exists_ path = (fs.view (splitPath path)).isSome
  congr : ∀ path', splitPath path' = splitPath path → fs.readFile path' = fs.readFile path ∧
    fs.listDir path' = fs.listDir path ∧ fs.exists_ path' = fs.exists_ path
  failure : ∀ op e, (fs.exec op).1 = .error e →
    (fs.exec op).2.root = fs.root ∧ (fs.exec op).2.inodeCount = fs.inodeCount

variable {fs : FileSystem} {path : Name}

/-! ## Reading the conditions of the code off the view -/

theorem walk_of_view_dir {p : List Name} (h : fs.view p = some .dir) :
    ∃ d cs, fs.root.walk p = some (.mk d (.directory cs)) := by
  obtain ⟨i, hw, hi⟩ := Option.map_eq_some_iff.mp h
  obtain ⟨d, data | cs⟩ := i
  · simp [Inode.entry, Inode.kind] at hi
  · exact ⟨d, cs, hw⟩

theorem view_child {p : List Name} {d n : Name} {cs : List (Name × Inode)}
    (hw : fs.root.walk p = some (.mk d (.directory cs))) :
    fs.view (p ++ [n]) ≠ none ↔ n ∈ cs.map Prod.fst := by
  rw [view, Inode.view_append hw, Inode.view_cons, Inode.findChild_directory,
    BTreeMap.mem_keys_iff]
  cases BTreeMap.get n cs with
  | none => simp
  | some c => simp [Inode.view]

/-- The children a directory has in the view are the entries of its map. -/
theorem ncard_children {p : List Name} {d : Name} {cs : List (Name × Inode)} (hwf : fs.root.Wf)
    (hw : fs.root.walk p = some (.mk d (.directory cs))) :
    {n | fs.view (p ++ [n]) ≠ none}.ncard = cs.length := by
  have hset : {n | fs.view (p ++ [n]) ≠ none} = ((cs.map Prod.fst).toFinset : Set Name) := by
    ext n
    simp only [Set.mem_ofPred_eq, view_child hw, List.coe_toFinset]
  have hnodup : (cs.map Prod.fst).Nodup := (hwf.walk hw).ordered.keys.imp ne_of_lt
  rw [hset, Set.ncard_coe_finset, List.toFinset_card_of_nodup hnodup, List.length_map]

theorem isListing_children {p : List Name} {d : Name} {cs : List (Name × Inode)}
    (hwf : fs.root.Wf) (hw : fs.root.walk p = some (.mk d (.directory cs))) :
    fs.view.IsListing p (cs.map Prod.fst) :=
  ⟨(hwf.walk hw).ordered.keys, fun _ => (view_child hw).symm⟩

/-! ## Creation -/

/-- **The code reaches its write exactly where the flat map allows a creation.**  The depth limit is
applied to the parent, so paths may be one component longer than those that can be read. -/
theorem exists_createTarget_iff (hwf : fs.root.Wf) (h1 : splitPath path ≠ [])
    (h17 : (splitPath path).length ≤ maxPathDepth + 1) :
    (∃ parent name d cs, CreateTarget fs path parent name d cs) ↔
      fs.view.CanCreate fs.inodeCount (splitPath path) := by
  obtain ⟨parent₀, hparent, hres⟩ := resolvePath_of_ne_nil h1
  have hcat : splitPath path = splitPath parent₀ ++ [(splitPath path).getLast h1] := by
    rw [hparent, List.dropLast_append_getLast]
  constructor
  · rintro ⟨parent, name, d, cs, ht⟩
    have hdots : ¬ IsDots ((splitPath path).getLast h1) := by
      intro hd
      rw [if_pos hd, ht.resolve] at hres
      cases hres
    rw [if_neg hdots, ht.resolve] at hres
    obtain ⟨rfl, rfl⟩ := Prod.mk.inj (Except.ok.inj hres)
    refine ⟨ht.room, ?_, ?_, ?_, ?_⟩
    · intro n hn
      rw [List.getLast?_eq_some_getLast h1, Option.mem_some_iff] at hn
      exact hn ▸ hdots
    · rw [← hparent, view, Inode.view, ht.walk]
      rfl
    · rw [hcat]
      by_contra hne
      have hsome := BTreeMap.mem_keys_iff.mp ((view_child ht.walk).mp hne)
      rw [ht.fresh] at hsome
      cases hsome
    · rw [← hparent, ncard_children hwf ht.walk]
      exact ht.width
  · intro hc
    have hdots : ¬ IsDots ((splitPath path).getLast h1) :=
      hc.legal _ (by rw [List.getLast?_eq_some_getLast h1]; rfl)
    obtain ⟨d, cs, hw⟩ := walk_of_view_dir hc.parent
    rw [← hparent] at hw
    refine ⟨parent₀, _, d, cs, hres.trans (if_neg hdots), hc.room, ?_, hw, ?_, ?_⟩
    · rw [hparent, List.length_dropLast]
      omega
    · by_contra hne
      have hmem := BTreeMap.mem_keys_iff.mpr (Option.isSome_iff_ne_none.mpr hne)
      exact (view_child hw).mpr hmem (by rw [← hcat]; exact hc.fresh)
    · rw [← ncard_children hwf hw, hparent]
      exact hc.width

theorem create_ok_iff (newInode : Name → Inode) (hwf : fs.root.Wf) (h1 : splitPath path ≠ [])
    (h17 : (splitPath path).length ≤ maxPathDepth + 1) :
    (fs.create newInode path).1 = .ok () ↔
      fs.view.CanCreate fs.inodeCount (splitPath path) := by
  rw [← exists_createTarget_iff hwf h1 h17]
  constructor
  · intro hok
    rcases create_cases newInode fs path with ⟨e, he⟩ | ht
    · rw [he] at hok
      cases hok
    · exact ht
  · rintro ⟨parent, name, d, cs, ht⟩
    rw [create_of_target ht]

/-- A target splits the path into its parent and its name. -/
theorem CreateTarget.splitPath_eq {parent name d : Name} {cs : List (Name × Inode)}
    (ht : CreateTarget fs path parent name d cs) (h1 : splitPath path ≠ []) :
    splitPath parent ++ [name] = splitPath path := by
  obtain ⟨parent₀, hparent, hres⟩ := resolvePath_of_ne_nil h1
  rw [ht.resolve] at hres
  split_ifs at hres with hd
  obtain ⟨rfl, rfl⟩ := Prod.mk.inj (Except.ok.inj hres)
  rw [hparent, List.dropLast_append_getLast]

theorem RemoveTarget.splitPath_eq {parent name d : Name} {cs : List (Name × Inode)}
    {victim : Inode} (ht : RemoveTarget fs path parent name d cs victim)
    (h1 : splitPath path ≠ []) : splitPath parent ++ [name] = splitPath path := by
  obtain ⟨parent₀, hparent, hres⟩ := resolvePath_of_ne_nil h1
  rw [ht.resolve] at hres
  split_ifs at hres with hd
  obtain ⟨rfl, rfl⟩ := Prod.mk.inj (Except.ok.inj hres)
  rw [hparent, List.dropLast_append_getLast]

/-- **A creation adds its path to the view**, whatever the length of the path. -/
theorem create_view {newInode : Name → Inode} (hleaf : ∀ n m, (newInode n).findChild m = none)
    (h1 : splitPath path ≠ []) (hok : (fs.create newInode path).1 = .ok ()) :
    ∃ name, (fs.create newInode path).2.view
      = Function.update fs.view (splitPath path) (some (newInode name).entry) := by
  rcases create_cases newInode fs path with ⟨e, he⟩ | ⟨parent, name, d, cs, ht⟩
  · rw [he] at hok
    cases hok
  · refine ⟨name, ?_⟩
    rw [create_of_target ht, ← ht.splitPath_eq h1]
    exact Inode.view_graft_insert ht.walk ht.fresh (hleaf name)

theorem createFile_view (h1 : splitPath path ≠ []) (hok : (fs.createFile path).1 = .ok ()) :
    (fs.createFile path).2.view = Function.update fs.view (splitPath path) (some (.file [])) :=
  (create_view (fun _ _ => rfl) h1 hok).choose_spec

theorem createDir_view (h1 : splitPath path ≠ []) (hok : (fs.createDir path).1 = .ok ()) :
    (fs.createDir path).2.view = Function.update fs.view (splitPath path) (some .dir) :=
  (create_view (fun _ _ => rfl) h1 hok).choose_spec

/-! ## Reading -/

theorem readFile_eq (h16 : (splitPath path).length ≤ maxPathDepth) :
    fs.readFile path = fs.view.read (splitPath path) := by
  rw [readFile, findInode_eq, if_neg (not_lt.mpr h16), View.read, view, Inode.view]
  cases fs.root.walk (splitPath path) with
  | none => rfl
  | some i =>
    obtain ⟨d, data | cs⟩ := i <;> rfl

theorem exists_eq (h16 : (splitPath path).length ≤ maxPathDepth) :
    fs.exists_ path = (fs.view (splitPath path)).isSome := by
  rw [exists_, findInode_eq, if_neg (not_lt.mpr h16), view, Inode.view]
  cases fs.root.walk (splitPath path) <;> rfl

theorem listDir_of_walk {d : Name} {cs : List (Name × Inode)}
    (h16 : (splitPath path).length ≤ maxPathDepth)
    (hw : fs.root.walk (splitPath path) = some (.mk d (.directory cs))) :
    fs.listDir path = .ok (cs.map Prod.fst) := by
  rw [listDir, findInode_eq, if_neg (not_lt.mpr h16), hw]
  rfl

theorem listDir_of_file {data : List UInt8} (h16 : (splitPath path).length ≤ maxPathDepth)
    (h : fs.view (splitPath path) = some (.file data)) :
    fs.listDir path = .error .notADirectory := by
  obtain ⟨i, hw, hi⟩ := Option.map_eq_some_iff.mp h
  obtain ⟨d, data | cs⟩ := i
  · rw [listDir, findInode_eq, if_neg (not_lt.mpr h16), hw]
    rfl
  · simp [Inode.entry, Inode.kind] at hi

theorem listDir_of_none (h16 : (splitPath path).length ≤ maxPathDepth)
    (h : fs.view (splitPath path) = none) : fs.listDir path = .error .notFound := by
  rw [listDir, findInode_eq, if_neg (not_lt.mpr h16), Option.map_eq_none_iff.mp h]
  rfl

theorem listDir_ok_iff (hwf : fs.root.Wf) (h16 : (splitPath path).length ≤ maxPathDepth)
    (names : List Name) : fs.listDir path = .ok names ↔
      fs.view (splitPath path) = some .dir ∧ fs.view.IsListing (splitPath path) names := by
  rcases hv : fs.view (splitPath path) with _ | (data | _)
  · simp [listDir_of_none h16 hv]
  · simp [listDir_of_file h16 hv]
  · obtain ⟨d, cs, hw⟩ := walk_of_view_dir hv
    have hlist := isListing_children hwf hw
    rw [listDir_of_walk h16 hw, Except.ok.injEq]
    constructor
    · rintro rfl
      exact ⟨rfl, hlist⟩
    · rintro ⟨-, hn⟩
      exact hlist.unique hn

/-- Reads see a path through its components alone. -/
theorem read_congr {path' : Name} (h : splitPath path' = splitPath path) :
    fs.readFile path' = fs.readFile path ∧ fs.listDir path' = fs.listDir path ∧
      fs.exists_ path' = fs.exists_ path := by
  simp only [readFile, listDir, exists_, findInode_eq, h, and_self]

/-! ## The refinement -/

/-- **A failed call changes nothing.** -/
theorem exec_failure (hwf : fs.root.Wf) {op : Op} {e : FsError} (h : (fs.exec op).1 = .error e) :
    (fs.exec op).2 = fs := by
  cases op with
  | createFile path =>
    rw [exec, createFile] at h ⊢
    rcases create_cases Inode.newFile fs path with ⟨e, he⟩ | ⟨_, _, _, _, ht⟩
    · rw [he]
    · rw [create_of_target ht] at h
      cases h
  | createDir path =>
    rw [exec, createDir] at h ⊢
    rcases create_cases Inode.newDirectory fs path with ⟨e, he⟩ | ⟨_, _, _, _, ht⟩
    · rw [he]
    · rw [create_of_target ht] at h
      cases h
  | writeFile path data =>
    rw [exec] at h ⊢
    rcases writeFile_cases hwf path data with ⟨e, he⟩ | ⟨_, _, ht, hlen⟩
    · rw [he]
    · rw [writeFile_of_target ht hlen] at h
      cases h
  | appendFile path data =>
    rw [exec] at h ⊢
    rcases appendFile_cases fs path data with ⟨e, he⟩ | ⟨_, _, ht, hlen⟩
    · rw [he]
    · rw [appendFile_of_target ht hlen] at h
      cases h
  | remove path =>
    rw [exec] at h ⊢
    rcases remove_cases hwf path with ⟨e, he⟩ | ⟨_, _, _, _, _, ht⟩
    · rw [he]
    · rw [remove_of_target ht] at h
      cases h

theorem view_of_writeTarget {d : Name} {buf : List UInt8} (ht : WriteTarget fs path d buf) :
    fs.view (splitPath path) = some (.file buf) := by
  rw [view, Inode.view, ht.walk]
  rfl

theorem view_written {d : Name} {buf : List UInt8} (ht : WriteTarget fs path d buf)
    (data : List UInt8) : (fs.written path d data).view
      = Function.update fs.view (splitPath path) (some (.file data)) :=
  Inode.view_graft_leaf ht.walk (fun _ => rfl) fun _ => rfl

/-- **Every reachable file system refines its view**, at every path of 1 to 16 components. -/
theorem run_refines (ops : List Op) (path : Name) (h1 : 1 ≤ (splitPath path).length)
    (h16 : (splitPath path).length ≤ maxPathDepth) : Refines (run ops) path := by
  have hwf := run_wf ops
  have hne : splitPath path ≠ [] := List.length_pos_iff.mp h1
  exact
    { createFile_ok := create_ok_iff _ hwf hne (h16.trans (Nat.le_succ _))
      createFile_view := createFile_view hne
      createDir_ok := create_ok_iff _ hwf hne (h16.trans (Nat.le_succ _))
      createDir_view := createDir_view hne
      writeFile_view := by
        intro data hok
        rcases writeFile_cases hwf path data with ⟨e, he⟩ | ⟨d, buf, ht, hlen⟩
        · rw [he] at hok
          cases hok
        · rw [writeFile_of_target ht hlen]
          exact ⟨⟨buf, view_of_writeTarget ht⟩, view_written ht data⟩
      appendFile_view := by
        intro data hok
        rcases appendFile_cases (run ops) path data with ⟨e, he⟩ | ⟨d, buf, ht, hlen⟩
        · rw [he] at hok
          cases hok
        · rw [appendFile_of_target ht hlen]
          exact ⟨buf, view_of_writeTarget ht, view_written ht _⟩
      remove_view := by
        intro hok
        rcases remove_cases hwf path with ⟨e, he⟩ | ⟨parent, name, d, cs, victim, ht⟩
        · rw [he] at hok
          cases hok
        · rw [remove_of_target ht, ← ht.splitPath_eq hne]
          refine ⟨(view_child ht.walk).mpr (BTreeMap.mem_keys_iff.mpr (by simp [ht.hit])), ?_⟩
          exact Inode.view_graft_remove ht.walk
      readFile_eq := readFile_eq h16
      listDir_ok := listDir_ok_iff hwf h16
      listDir_file := fun _ => listDir_of_file h16
      listDir_none := listDir_of_none h16
      exists_eq := exists_eq h16
      congr := fun _ => read_congr
      failure := fun op e h => by simp only [exec_failure hwf h, and_self] }

/-- Repeated and trailing slashes: the path `/a//b/`, with `/a` in place. -/
theorem run_refines_slashes :
    Refines (run [.createDir ['/', 'a']]) ['/', 'a', '/', '/', 'b', '/'] :=
  run_refines _ _ (by decide) (by decide)

end FileSystem

end YontiOs.Fs
