import YontiOs.Fs.FileSystem

/-!
# Fs/View — the tree as a flat map of paths

`Inode.walk` follows a list of child names down the tree and `Inode.graft` puts another inode where
a walk ends; they are what `find_inode` and the references of `find_inode_mut` compute.  The *view*
of a tree forgets everything but which walks succeed and what they end in, and `view_graft` says
how a write through a reference changes it.

Every method is inverted once (`create_cases`, `writeFile_cases`, `appendFile_cases`,
`remove_cases`): it fails and leaves the file system as it was, or it grafts one inode.
-/

namespace YontiOs.Fs

/-- What a path can lead to. -/
inductive Entry
  | file (data : List UInt8)
  | dir
  deriving DecidableEq, Repr

/-- The flat map of a file system: walks from the root to what they end in. -/
abbrev View := List Name → Option Entry

namespace Inode

def entry (i : Inode) : Entry :=
  match i.kind with
  | .file data => .file data
  | .directory _ => .dir

/-- The inode a list of child names leads to. -/
def walk : Inode → List Name → Option Inode
  | i, [] => some i
  | i, n :: ns =>
    match i.findChild n with
    | some c => c.walk ns
    | none => none

/-- The tree with `x` written where the walk ends. -/
def graft : Inode → List Name → Inode → Inode
  | _, [], x => x
  | mk d (.directory cs), n :: ns, x =>
    match BTreeMap.get n cs with
    | some c => mk d (.directory (BTreeMap.insert n (c.graft ns x) cs))
    | none => mk d (.directory cs)
  | mk d (.file data), _ :: _, _ => mk d (.file data)

def view (i : Inode) : View := fun p => (i.walk p).map entry

/-- Children are in name order, in every directory of the tree. -/
inductive Wf : Inode → Prop
  | file {d : Name} {data : List UInt8} : Wf (mk d (.file data))
  | directory {d : Name} {cs : List (Name × Inode)} (hord : BTreeMap.Ordered cs)
      (hcs : ∀ e ∈ cs, Wf e.2) : Wf (mk d (.directory cs))

variable {i x old c : Inode} {n d : Name} {p q ns : List Name} {cs : List (Name × Inode)}
  {data : List UInt8}

@[simp] theorem walk_nil : i.walk [] = some i := by rw [walk]

@[simp] theorem findChild_directory : (mk d (.directory cs)).findChild n = BTreeMap.get n cs := rfl

@[simp] theorem findChild_file : (mk d (.file data)).findChild n = none := rfl

theorem walk_cons : i.walk (n :: ns) = (i.findChild n).bind (·.walk ns) := by
  rw [walk]
  cases i.findChild n <;> rfl

theorem walk_append (p q : List Name) (i : Inode) :
    i.walk (p ++ q) = (i.walk p).bind (·.walk q) := by
  induction p generalizing i with
  | nil => simp
  | cons n ns ih =>
    rw [List.cons_append, walk_cons, walk_cons]
    cases i.findChild n with
    | none => rfl
    | some c => exact ih c

@[simp] theorem graft_nil : i.graft [] x = x := by rw [graft]

/-- A walk that ends starts in a directory holding its first name. -/
theorem walk_cons_eq_some (h : i.walk (n :: ns) = some old) :
    ∃ d cs c, i = mk d (.directory cs) ∧ BTreeMap.get n cs = some c ∧ c.walk ns = some old := by
  obtain ⟨d, data | cs⟩ := i
  · simp [walk_cons] at h
  · rw [walk_cons, findChild_directory] at h
    obtain ⟨c, hc, hw⟩ := Option.bind_eq_some_iff.mp h
    exact ⟨d, cs, c, rfl, hc, hw⟩

theorem graft_cons (hc : BTreeMap.get n cs = some c) :
    (mk d (.directory cs)).graft (n :: ns) x
      = mk d (.directory (BTreeMap.insert n (c.graft ns x) cs)) := by
  rw [graft, hc]

theorem Wf.ordered (h : Wf (mk d (.directory cs))) : BTreeMap.Ordered cs := by
  cases h with
  | directory hord _ => exact hord

theorem Wf.child (h : Wf (mk d (.directory cs))) (hc : BTreeMap.get n cs = some c) : Wf c := by
  cases h with
  | directory hord hcs =>
    have hmem := (BTreeMap.perm_remove hord hc).mem_iff.mpr List.mem_cons_self
    exact hcs _ hmem

theorem Wf.insert (h : Wf (mk d (.directory cs))) (hx : Wf x) :
    Wf (mk d (.directory (BTreeMap.insert n x cs))) := by
  cases h with
  | directory hord hcs =>
    refine .directory hord.insert fun e he => ?_
    rcases BTreeMap.mem_insert he with rfl | he
    · exact hx
    · exact hcs e he

theorem Wf.remove (h : Wf (mk d (.directory cs))) :
    Wf (mk d (.directory (BTreeMap.remove n cs))) := by
  cases h with
  | directory hord hcs => exact .directory hord.remove fun e he => hcs e (List.mem_of_mem_filter he)

theorem Wf.walk (h : Wf i) (hw : i.walk p = some old) : Wf old := by
  induction p generalizing i with
  | nil => simpa using (Option.some.inj (walk_nil ▸ hw)) ▸ h
  | cons n ns ih =>
    obtain ⟨d, cs, c, rfl, hc, hw⟩ := walk_cons_eq_some hw
    exact ih (h.child hc) hw

theorem Wf.graft (h : Wf i) (hw : i.walk p = some old) (hx : Wf x) : Wf (i.graft p x) := by
  induction p generalizing i with
  | nil => simpa using hx
  | cons n ns ih =>
    obtain ⟨d, cs, c, rfl, hc, hw⟩ := walk_cons_eq_some hw
    rw [graft_cons hc]
    exact h.insert (ih (h.child hc) hw)

/-- Writing back what is there changes nothing. -/
theorem graft_self (h : Wf i) (hw : i.walk p = some old) : i.graft p old = i := by
  induction p generalizing i with
  | nil => simpa using (Option.some.inj (walk_nil ▸ hw)).symm
  | cons n ns ih =>
    obtain ⟨d, cs, c, rfl, hc, hw⟩ := walk_cons_eq_some hw
    rw [graft_cons hc, ih (h.child hc) hw, BTreeMap.insert_get h.ordered hc]

/-! ## The view of a graft -/

theorem view_cons : i.view (n :: ns) = (i.findChild n).bind fun c => c.view ns := by
  rw [view, walk_cons]
  cases i.findChild n <;> rfl

theorem view_append (hw : i.walk p = some old) (r : List Name) : i.view (p ++ r) = old.view r := by
  rw [view, walk_append, hw]
  rfl

/-- **A graft changes the view at the grafted path and below it, and nowhere else.** -/
theorem view_graft (hw : i.walk p = some old) (q : List Name) :
    (i.graft p x).view q = if p <+: q then x.view (q.drop p.length) else i.view q := by
  induction p generalizing i q with
  | nil => simp
  | cons n ns ih =>
    obtain ⟨d, cs, c, rfl, hc, hwc⟩ := walk_cons_eq_some hw
    rw [graft_cons hc]
    cases q with
    | nil => simp [view, entry, kind]
    | cons m ms =>
      rw [view_cons, view_cons, findChild_directory, findChild_directory]
      by_cases hm : m = n
      · subst hm
        simp [hc, ih hwc]
      · have hpre : ¬ (n :: ns <+: m :: ms) := fun hp => hm (List.cons_prefix_cons.mp hp).1.symm
        rw [BTreeMap.get_insert_ne hm, if_neg hpre]

/-- Writing an inode without children over one without children changes the view at one path. -/
theorem view_graft_leaf (hw : i.walk p = some old) (hold : ∀ n, old.findChild n = none)
    (hx : ∀ n, x.findChild n = none) :
    (i.graft p x).view = Function.update i.view p (some x.entry) := by
  funext q
  rw [view_graft hw]
  split_ifs with hp
  · obtain ⟨r, rfl⟩ := hp
    rw [List.drop_left]
    cases r with
    | nil => simp [view]
    | cons m ms =>
      have hne : p ++ m :: ms ≠ p := by simp
      rw [Function.update_of_ne hne, view_append hw, view_cons, view_cons, hold, hx]
  · have hne : q ≠ p := fun hq => hp (hq ▸ List.prefix_rfl)
    rw [Function.update_of_ne hne]

/-- Inserting a fresh, childless inode into a directory adds one path to the view. -/
theorem view_graft_insert (hw : i.walk p = some (mk d (.directory cs)))
    (hn : BTreeMap.get n cs = none) (hx : ∀ m, x.findChild m = none) :
    (i.graft p (mk d (.directory (BTreeMap.insert n x cs)))).view
      = Function.update i.view (p ++ [n]) (some x.entry) := by
  funext q
  rw [view_graft hw]
  split_ifs with hp
  · obtain ⟨r, rfl⟩ := hp
    rw [List.drop_left]
    rcases r with _ | ⟨m, ms⟩
    · have hne : p ++ [] ≠ p ++ [n] := by simp
      rw [Function.update_of_ne hne, view_append hw]
      rfl
    · by_cases hm : m = n
      · subst hm
        rw [view_cons, findChild_directory, BTreeMap.get_insert_self]
        cases ms with
        | nil => simp [view]
        | cons m' ms =>
          have hne : p ++ m :: m' :: ms ≠ p ++ [m] := by simp
          rw [Function.update_of_ne hne, view_append hw, view_cons, findChild_directory, hn]
          simp [view_cons, hx]
      · have hne : p ++ m :: ms ≠ p ++ [n] := by simp [hm]
        rw [Function.update_of_ne hne, view_append hw, view_cons, view_cons, findChild_directory,
          findChild_directory, BTreeMap.get_insert_ne hm]
  · have hne : q ≠ p ++ [n] := fun hq => hp (hq ▸ List.prefix_append p [n])
    rw [Function.update_of_ne hne]

/-- Removing a child removes its path from the view, with every path extending it. -/
theorem view_graft_remove (hw : i.walk p = some (mk d (.directory cs))) :
    (i.graft p (mk d (.directory (BTreeMap.remove n cs)))).view
      = fun q => if p ++ [n] <+: q then none else i.view q := by
  funext q
  rw [view_graft hw]
  split_ifs with hp hpn hpn
  · obtain ⟨r, rfl⟩ := hpn
    rw [List.append_assoc, List.drop_left, List.singleton_append, view_cons, findChild_directory,
      BTreeMap.get_remove_self]
    rfl
  · obtain ⟨r, rfl⟩ := hp
    rw [List.drop_left, view_append hw]
    rcases r with _ | ⟨m, ms⟩
    · rfl
    · have hm : m ≠ n := fun hm => hpn (by rw [hm]; exact ⟨ms, by simp⟩)
      rw [view_cons, view_cons, findChild_directory, findChild_directory,
        BTreeMap.get_remove_ne hm]
  · exact absurd ((List.prefix_append p [n]).trans hpn) hp
  · rfl

end Inode

/-! ## What the lookups compute -/

theorem findInode_eq (root : Inode) (path : Name) :
    findInode root path = if (splitPath path).length > maxPathDepth then .error .pathTooDeep
      else (root.walk (splitPath path)).elim (.error .notFound) .ok := by
  have key : ∀ (parts : List Name) (i : Inode),
      parts.foldlM descend i = (i.walk parts).elim (.error .notFound) .ok := by
    intro parts
    induction parts with
    | nil => intro i; simp [pure, Except.pure]
    | cons n ns ih =>
      intro i
      rw [List.foldlM_cons, Inode.walk_cons, descend]
      cases i.findChild n with
      | none => rfl
      | some c => exact ih c
  simp only [findInode, key]

theorem findInodeMut_eq (root : Inode) (path : Name) :
    findInodeMut root path = if (splitPath path).length > maxPathDepth then .error .pathTooDeep
      else (root.walk (splitPath path)).elim (.error .notFound)
        fun i => .ok ⟨i, root.graft (splitPath path)⟩ := by
  have key : ∀ (parts : List Name) (r : InodeRef),
      parts.foldlM descendMut r = (r.inode.walk parts).elim (.error .notFound)
        fun i => .ok ⟨i, fun x => r.put (r.inode.graft parts x)⟩ := by
    intro parts
    induction parts with
    | nil => rintro ⟨i, put⟩; simp [pure, Except.pure]
    | cons n ns ih =>
      rintro ⟨⟨d, data | cs⟩, put⟩
      · rw [List.foldlM_cons, Inode.walk_cons]
        rfl
      · rw [List.foldlM_cons, Inode.walk_cons, Inode.findChild_directory]
        cases hc : BTreeMap.get n cs with
        | none =>
          have hnone : InodeRef.findChildMut ⟨.mk d (.directory cs), put⟩ n = none := by
            simp [InodeRef.findChildMut, Inode.kind, hc]
          rw [descendMut, hnone]
          rfl
        | some c =>
          have hsome : InodeRef.findChildMut ⟨.mk d (.directory cs), put⟩ n
              = some ⟨c, fun i => put (.mk d (.directory (BTreeMap.insert n i cs)))⟩ := by
            simp [InodeRef.findChildMut, Inode.kind, Inode.name, hc]
          rw [descendMut, hsome]
          refine (ih _).trans ?_
          simp only [Option.bind_some, Inode.graft_cons hc]
  simp only [findInodeMut, key, id]

/-- **`find_dir_mut` returns a directory the tree has at the path**, to be written by grafting. -/
theorem findDirMut_eq_ok {root : Inode} {path : Name} {dir : DirRef}
    (h : findDirMut root path = .ok dir) :
    (splitPath path).length ≤ maxPathDepth ∧
      root.walk (splitPath path) = some (.mk dir.inode.name (.directory dir.children)) ∧
      dir.put = root.graft (splitPath path) := by
  rw [findDirMut, findInodeMut_eq] at h
  by_cases hlen : (splitPath path).length > maxPathDepth
  · simp [hlen] at h
  rw [if_neg hlen] at h
  cases hw : root.walk (splitPath path) with
  | none => simp [hw] at h
  | some i =>
    obtain ⟨d, data | cs⟩ := i
    · simp [hw, Inode.kind] at h
    · rw [hw] at h
      obtain rfl := Except.ok.inj h
      exact ⟨not_lt.mp hlen, rfl, rfl⟩

theorem findDirMut_of_walk {root : Inode} {path d : Name} {cs : List (Name × Inode)}
    (hlen : (splitPath path).length ≤ maxPathDepth)
    (hw : root.walk (splitPath path) = some (.mk d (.directory cs))) :
    ∃ dir, findDirMut root path = .ok dir ∧ dir.inode = .mk d (.directory cs) := by
  refine ⟨⟨⟨.mk d (.directory cs), root.graft (splitPath path)⟩, cs, rfl⟩, ?_, rfl⟩
  rw [findDirMut, findInodeMut_eq, if_neg (not_lt.mpr hlen), hw]
  rfl

end YontiOs.Fs
