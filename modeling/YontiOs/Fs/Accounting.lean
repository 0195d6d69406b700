import YontiOs.Fs.Effect

/-!
# Fs/Accounting — `inode_count` against the tree

`inode_count` is kept apart from the tree and changes by one in each creation and each removal.  A
removal takes out a whole subtree, so the counter runs ahead of the tree by the inodes that went
with it (`removed_count`) and never falls behind.  `inodeCount_exact_iff` turns this into the exact
condition on a history for counter and tree to agree at its end.
-/

namespace YontiOs.Fs

/-! ## The size of a tree -/

mutual

/-- The number of inodes of a tree, its root included. -/
def Inode.count : Inode → ℕ
  | .mk _ (.file _) => 1
  | .mk _ (.directory cs) => 1 + countChildren cs

def countChildren : List (Name × Inode) → ℕ
  | [] => 0
  | (_, i) :: cs => i.count + countChildren cs

end

namespace Inode

variable {i x old : Inode} {d n : Name} {p : List Name} {cs : List (Name × Inode)}
  {data : List UInt8}

theorem countChildren_eq_sum (cs : List (Name × Inode)) :
    countChildren cs = (cs.map fun e => e.2.count).sum := by
  induction cs with
  | nil => rfl
  | cons e cs ih =>
    obtain ⟨n, i⟩ := e
    rw [countChildren, ih, List.map_cons, List.sum_cons]

theorem count_file : (mk d (.file data)).count = 1 := by rw [count]

theorem count_directory :
    (mk d (.directory cs)).count = 1 + (cs.map fun e => e.2.count).sum := by
  rw [count, countChildren_eq_sum]

theorem count_pos (i : Inode) : 0 < i.count := by
  obtain ⟨d, data | cs⟩ := i
  · rw [count_file]
    omega
  · rw [count_directory]
    omega

/-- A tree is one inode exactly when its root has no children. -/
theorem count_eq_one_iff : i.count = 1 ↔ ∀ n, i.findChild n = none := by
  obtain ⟨d, data | cs⟩ := i
  · simp [count_file]
  · rw [count_directory]
    rcases cs with _ | ⟨⟨n, c⟩, cs⟩
    · simp
    · have hpos := c.count_pos
      constructor
      · intro h
        simp only [List.map_cons, List.sum_cons] at h
        omega
      · intro h
        have := h n
        simp at this

/-- Overwriting one child trades its size for the new one's. -/
theorem count_insert (hord : BTreeMap.Ordered cs) (hn : BTreeMap.get n cs = some old) :
    (mk d (.directory (BTreeMap.insert n x cs))).count + old.count
      = (mk d (.directory cs)).count + x.count := by
  have hin := ((BTreeMap.insert_perm (k := n) (v := x) hord).map fun e => e.2.count).sum_eq
  have hout := ((BTreeMap.perm_remove hord hn).map fun e => e.2.count).sum_eq
  rw [count_directory, count_directory, hin, hout]
  simp only [List.map_cons, List.sum_cons]
  omega

theorem count_insert_fresh (hord : BTreeMap.Ordered cs) (hn : BTreeMap.get n cs = none) :
    (mk d (.directory (BTreeMap.insert n x cs))).count
      = (mk d (.directory cs)).count + x.count := by
  have hin := ((BTreeMap.insert_perm (k := n) (v := x) hord).map fun e => e.2.count).sum_eq
  rw [count_directory, count_directory, hin, BTreeMap.remove_eq_self hn]
  simp only [List.map_cons, List.sum_cons]
  omega

theorem count_remove (hord : BTreeMap.Ordered cs) (hn : BTreeMap.get n cs = some old) :
    (mk d (.directory (BTreeMap.remove n cs))).count + old.count
      = (mk d (.directory cs)).count := by
  have hout := ((BTreeMap.perm_remove hord hn).map fun e => e.2.count).sum_eq
  rw [count_directory, count_directory, hout]
  simp only [List.map_cons, List.sum_cons]
  omega

/-- **A graft trades the size of what it overwrites for the size of what it writes.** -/
theorem count_graft (hwf : i.Wf) (hw : i.walk p = some old) :
    (i.graft p x).count + old.count = i.count + x.count := by
  induction p generalizing i with
  | nil =>
    obtain rfl : i = old := by simpa using hw
    rw [graft_nil, Nat.add_comm]
  | cons n ns ih =>
    obtain ⟨d, cs, c, rfl, hc, hwc⟩ := walk_cons_eq_some hw
    have hstep := ih (hwf.child hc) hwc
    have hins := count_insert (d := d) (x := c.graft ns x) hwf.ordered hc
    rw [graft_cons hc]
    omega

end Inode

namespace FileSystem

variable {fs : FileSystem} {path parent name d : Name} {cs : List (Name × Inode)}
  {victim x : Inode}

/-! ## Counter and tree in one call -/

theorem created_count (hwf : fs.root.Wf) (ht : CreateTarget fs path parent name d cs)
    (hx : x.count = 1) : (fs.created parent name d cs x).root.count = fs.root.count + 1 := by
  have hgraft := Inode.count_graft (x := .mk d (.directory (BTreeMap.insert name x cs)))
    hwf ht.walk
  have hins := Inode.count_insert_fresh (d := d) (x := x) (hwf.walk ht.walk).ordered ht.fresh
  rw [created]
  dsimp only
  omega

/-- A removal takes its victim's whole subtree out of the tree. -/
theorem removed_count (hwf : fs.root.Wf) (ht : RemoveTarget fs path parent name d cs victim) :
    (fs.removed parent name d cs).root.count + victim.count = fs.root.count := by
  have hgraft := Inode.count_graft (x := .mk d (.directory (BTreeMap.remove name cs)))
    hwf ht.walk
  have hrem := Inode.count_remove (d := d) (hwf.walk ht.walk).ordered ht.hit
  rw [removed]
  dsimp only
  omega

theorem written_count {buf : List UInt8} (hwf : fs.root.Wf) (ht : WriteTarget fs path d buf)
    (data : List UInt8) : (fs.written path d data).root.count = fs.root.count := by
  have hgraft := Inode.count_graft (x := .mk d (.file data)) hwf ht.walk
  rw [Inode.count_file, Inode.count_file] at hgraft
  rw [written]
  dsimp only
  omega

/-- `remove(path)` takes out a file or an empty directory, if it takes out anything. -/
def RemovesLeaf (fs : FileSystem) (path : Name) : Prop :=
  ∀ parent name dir child, resolvePath path = .ok (parent, name) →
    findInode fs.root parent = .ok dir → dir.findChild name = some child →
    ∀ n, child.findChild n = none

theorem removesLeaf_iff (fs : FileSystem) (path : Name) : RemovesLeaf fs path ↔
    ∀ parent name d cs victim, RemoveTarget fs path parent name d cs victim →
      victim.count = 1 := by
  constructor
  · intro h parent name d cs victim ht
    refine Inode.count_eq_one_iff.mpr
      (h parent name (.mk d (.directory cs)) victim ht.resolve ?_ ht.hit)
    rw [findInode_eq, if_neg (not_lt.mpr ht.depth), ht.walk]
    rfl
  · intro h parent name dir child hres hfind hchild
    rw [findInode_eq] at hfind
    split_ifs at hfind with hlen
    cases hw : fs.root.walk (splitPath parent) with
    | none => simp [hw] at hfind
    | some i =>
      obtain rfl : i = dir := by simpa [hw] using hfind
      obtain ⟨d, data | cs⟩ := i
      · simp at hchild
      · exact Inode.count_eq_one_iff.mp
          (h parent name d cs child ⟨hres, not_lt.mp hlen, hw, hchild⟩)

/-- The counter bounds the tree, and stays within its limit. -/
structure CountOk (fs : FileSystem) : Prop where
  count_le : fs.root.count ≤ fs.inodeCount
  le_max : fs.inodeCount ≤ maxTotalInodes

/-- The call keeps counter and tree in step. -/
def KeepsCount (fs : FileSystem) : Op → Prop
  | .remove path => RemovesLeaf fs path
  | _ => True

/-- What a call that only grafts, or fails, does to the counter. -/
theorem create_count {newInode : Name → Inode} (hwf : fs.root.Wf) (hc : CountOk fs)
    (hnew : ∀ n, (newInode n).count = 1) (path : Name) :
    CountOk (fs.create newInode path).2 ∧
      ((fs.create newInode path).2.inodeCount = (fs.create newInode path).2.root.count ↔
        fs.inodeCount = fs.root.count) := by
  obtain ⟨hle, hmax⟩ := hc
  rcases create_cases newInode fs path with ⟨e, he⟩ | ⟨parent, name, d, cs, ht⟩
  · rw [he]
    exact ⟨⟨hle, hmax⟩, Iff.rfl⟩
  · have hcount := created_count hwf ht (hnew name)
    have hroom := ht.room
    have hic : (fs.created parent name d cs (newInode name)).inodeCount = fs.inodeCount + 1 := rfl
    rw [create_of_target ht]
    dsimp only
    exact ⟨⟨by omega, by omega⟩, by omega⟩

/-- New contents of a file change neither the counter nor the number of inodes. -/
theorem written_countOk {buf data : List UInt8} (hwf : fs.root.Wf) (hc : CountOk fs)
    (ht : WriteTarget fs path d buf) :
    CountOk (fs.written path d data) ∧
      ((fs.written path d data).inodeCount = (fs.written path d data).root.count ↔
        fs.inodeCount = fs.root.count) := by
  have hcount := written_count hwf ht data
  have hic : (fs.written path d data).inodeCount = fs.inodeCount := rfl
  obtain ⟨hle, hmax⟩ := hc
  exact ⟨⟨by omega, by omega⟩, by omega⟩

/-- A removal takes one off the counter, and the whole subtree off the tree. -/
theorem remove_count (hwf : fs.root.Wf) (hc : CountOk fs) (path : Name) :
    CountOk (fs.remove path).2 ∧
      ((fs.remove path).2.inodeCount = (fs.remove path).2.root.count ↔
        fs.inodeCount = fs.root.count ∧ RemovesLeaf fs path) := by
  obtain ⟨hle, hmax⟩ := hc
  rw [removesLeaf_iff]
  rcases remove_cases hwf path with ⟨e, he⟩ | ⟨parent, name, d, cs, victim, ht⟩
  · -- a call that fails has no victim
    have hnone : ∀ parent name d cs victim,
        RemoveTarget fs path parent name d cs victim → victim.count = 1 := by
      intro parent name d cs victim ht
      rw [remove_of_target ht] at he
      cases he
    rw [he]
    exact ⟨⟨hle, hmax⟩, (and_iff_left hnone).symm⟩
  · have hcount := removed_count hwf ht
    have hpos := victim.count_pos
    have hroot := (fs.removed parent name d cs).root.count_pos
    have hic : (fs.removed parent name d cs).inodeCount = fs.inodeCount - 1 := rfl
    have hleaf : (∀ parent name d cs victim,
        RemoveTarget fs path parent name d cs victim → victim.count = 1) ↔ victim.count = 1 := by
      refine ⟨fun h => h _ _ _ _ _ ht, fun h parent' name' d' cs' victim' ht' => ?_⟩
      obtain ⟨rfl, rfl⟩ := Prod.mk.inj (Except.ok.inj (ht.resolve.symm.trans ht'.resolve))
      cases Option.some.inj (ht.walk.symm.trans ht'.walk)
      cases Option.some.inj (ht.hit.symm.trans ht'.hit)
      exact h
    rw [hleaf, remove_of_target ht]
    dsimp only
    exact ⟨⟨by omega, by omega⟩, by omega⟩

/-- **One call keeps the counter at or above the tree; it keeps them equal exactly when they were
equal and the call does not remove a subtree.** -/
theorem exec_count (hwf : fs.root.Wf) (hc : CountOk fs) (op : Op) :
    CountOk (fs.exec op).2 ∧ ((fs.exec op).2.inodeCount = (fs.exec op).2.root.count ↔
      fs.inodeCount = fs.root.count ∧ KeepsCount fs op) := by
  cases op with
  | createFile path =>
    simp only [exec, KeepsCount, and_true]
    exact create_count hwf hc (fun _ => Inode.count_file) path
  | createDir path =>
    have hnew : ∀ n, (Inode.newDirectory n).count = 1 := fun n => by
      rw [Inode.newDirectory, Inode.count_directory]
      rfl
    simp only [exec, KeepsCount, and_true]
    exact create_count hwf hc hnew path
  | writeFile path data =>
    simp only [exec, KeepsCount, and_true]
    rcases writeFile_cases hwf path data with ⟨e, he⟩ | ⟨d, buf, ht, hlen⟩
    · rw [he]
      exact ⟨hc, Iff.rfl⟩
    · rw [writeFile_of_target ht hlen]
      exact written_countOk hwf hc ht
  | appendFile path data =>
    simp only [exec, KeepsCount, and_true]
    rcases appendFile_cases fs path data with ⟨e, he⟩ | ⟨d, buf, ht, hlen⟩
    · rw [he]
      exact ⟨hc, Iff.rfl⟩
    · rw [appendFile_of_target ht hlen]
      exact written_countOk hwf hc ht
  | remove path => exact remove_count hwf hc path

/-! ## Counter and tree over a history -/

theorem run_countOk (ops : List Op) : CountOk (run ops) := by
  induction ops using List.reverseRecOn with
  | nil => exact ⟨by decide, by decide⟩
  | append_singleton ops op ih =>
    rw [run_concat]
    exact (exec_count (run_wf ops) ih op).1

/-- The step form of the condition: every call of the history keeps counter and tree in step. -/
theorem run_count_iff (ops : List Op) : (run ops).inodeCount = (run ops).root.count ↔
    ∀ pre op, pre ++ [op] <+: ops → KeepsCount (run pre) op := by
  induction ops using List.reverseRecOn with
  | nil => simp [new, Inode.newDirectory, Inode.count_directory]
  | append_singleton ops op ih =>
    rw [run_concat, (exec_count (run_wf ops) (run_countOk ops) op).2, ih]
    constructor
    · rintro ⟨hpre, hlast⟩ pre op' hp
      rcases List.prefix_concat_iff.mp hp with heq | hp
      · obtain ⟨rfl, hop⟩ := List.append_inj' heq rfl
        obtain rfl : op' = op := by simpa using hop
        exact hlast
      · exact hpre pre op' hp
    · intro h
      exact ⟨fun pre op' hp => h pre op' (hp.trans (List.prefix_append _ _)),
        h ops op List.prefix_rfl⟩

theorem resolvePath_error {e : FsError} (h : resolvePath path = .error e) : e = .invalidPath := by
  by_cases hne : splitPath path = []
  · rcases resolvePath_of_eq_nil hne with h' | h' <;> rw [h'] at h <;> cases h
    rfl
  · obtain ⟨parent, -, hres⟩ := resolvePath_of_ne_nil hne
    rw [hres] at h
    split_ifs at h
    cases h
    rfl

theorem findDirMut_error {root : Inode} {e : FsError} (h : findDirMut root path = .error e) :
    e ≠ .tooManyInodes := by
  rintro rfl
  rw [findDirMut, findInodeMut_eq] at h
  by_cases hlen : (splitPath path).length > maxPathDepth
  · simp [hlen] at h
  · rw [if_neg hlen] at h
    cases hw : root.walk (splitPath path) with
    | none => simp [hw] at h
    | some i =>
      obtain ⟨d, data | cs⟩ := i
      · simp [hw, Inode.kind] at h
      · rw [hw] at h
        cases h

/-- A creation is refused for want of inodes only at the limit of the counter. -/
theorem create_tooManyInodes {newInode : Name → Inode}
    (h : (fs.create newInode path).1 = .error .tooManyInodes) :
    maxTotalInodes ≤ fs.inodeCount := by
  by_contra hlt
  rw [create, if_neg (show ¬ fs.inodeCount ≥ maxTotalInodes from hlt)] at h
  cases hres : resolvePath path with
  | error e =>
    rw [hres] at h
    cases h
    cases resolvePath_error hres
  | ok pn =>
    obtain ⟨parent, name⟩ := pn
    cases hdir : findDirMut fs.root parent with
    | error e =>
      simp only [hres, hdir, Except.error.injEq] at h
      exact findDirMut_error hdir h
    | ok dir =>
      simp only [hres, hdir] at h
      split_ifs at h <;> cases h

/-- **The inode count is the size of the tree, and `TooManyInodes` means a full tree, exactly at the
end of those histories whose removals all took out a file or an empty directory.** -/
theorem inodeCount_exact_iff (ops : List Op) :
    ((run ops).inodeCount = (run ops).root.count ∧
      ∀ path, (((run ops).createFile path).1 = .error .tooManyInodes ∨
        ((run ops).createDir path).1 = .error .tooManyInodes) →
          (run ops).root.count = maxTotalInodes) ↔
    ∀ pre path, pre ++ [.remove path] <+: ops → RemovesLeaf (run pre) path := by
  have hok := run_countOk ops
  have hiff : (∀ pre op, pre ++ [op] <+: ops → KeepsCount (run pre) op) ↔
      ∀ pre path, pre ++ [.remove path] <+: ops → RemovesLeaf (run pre) path := by
    refine ⟨fun h pre path hp => h pre _ hp, fun h pre op hp => ?_⟩
    cases op with
    | remove path => exact h pre path hp
    | _ => trivial
  rw [← hiff, ← run_count_iff]
  refine ⟨And.left, fun heq => ⟨heq, fun path hfull => ?_⟩⟩
  have hmax : maxTotalInodes ≤ (run ops).inodeCount := by
    rcases hfull with h | h <;> exact create_tooManyInodes h
  have := hok.le_max
  omega

/-- Removing `/a` with `/a/b` in it: the tree is the root alone, the counter says two. -/
theorem inodeCount_after_subtree_removal :
    let fs := run [.createDir ['a'], .createFile ['a', '/', 'b'], .remove ['a']]
    fs.inodeCount = 2 ∧ fs.root.count = 1 := by decide

end FileSystem

end YontiOs.Fs
