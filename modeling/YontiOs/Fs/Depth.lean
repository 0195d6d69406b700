import YontiOs.Fs.Refinement

/-!
# Fs/Depth — the depth limit, and what it lets in

The limit of 16 components is enforced inside the lookup.  Reads and writes look up the whole path;
creation looks up the parent, so it accepts a path of 17 components and makes an inode no later
call can reach.  `addressable_iff` gives the histories in which this does not happen.
-/

namespace YontiOs.Fs

namespace FileSystem

variable {fs : FileSystem} {path : Name}

/-- Every inode of the tree lies within the depth limit. -/
def Shallow (fs : FileSystem) : Prop := ∀ p, fs.view p ≠ none → p.length ≤ maxPathDepth

/-! ## Where a call can put an inode -/

theorem view_create_cases {newInode : Name → Inode} (hleaf : ∀ n m, (newInode n).findChild m = none)
    {q : List Name} (hq : (fs.create newInode path).2.view q ≠ none) :
    fs.view q ≠ none ∨ ((fs.create newInode path).1 = .ok () ∧
      (splitPath path ≠ [] ∧ q = splitPath path ∧ q.length ≤ maxPathDepth + 1 ∨ q.length = 1)) := by
  rcases create_cases newInode fs path with ⟨e, he⟩ | ⟨parent, name, d, cs, ht⟩
  · rw [he] at hq
    exact Or.inl hq
  rw [create_of_target ht] at hq ⊢
  by_cases hqp : q = splitPath parent ++ [name]
  · refine Or.inr ⟨rfl, ?_⟩
    by_cases h1 : splitPath path = []
    · -- slashes alone: the child with the empty name, in the root
      rcases resolvePath_of_eq_nil h1 with h | h <;> rw [ht.resolve] at h
      · cases h
      · obtain ⟨rfl, rfl⟩ := Prod.mk.inj (Except.ok.inj h)
        exact Or.inr (by rw [hqp]; decide)
    · refine Or.inl ⟨h1, hqp.trans (ht.splitPath_eq h1), ?_⟩
      rw [hqp, List.length_append, List.length_singleton]
      exact Nat.succ_le_succ ht.depth
  · left
    have hview : (fs.created parent name d cs (newInode name)).view
        = Function.update fs.view (splitPath parent ++ [name]) (some (newInode name).entry) :=
      Inode.view_graft_insert ht.walk ht.fresh (hleaf name)
    rwa [hview, Function.update_of_ne hqp] at hq

/-- A creation keeps the tree shallow unless it makes a path of 17 components. -/
theorem create_shallow {newInode : Name → Inode} (hleaf : ∀ n m, (newInode n).findChild m = none)
    (hsh : fs.Shallow) (hpath : (fs.create newInode path).1 = .ok () →
      (splitPath path).length ≠ maxPathDepth + 1) : (fs.create newInode path).2.Shallow := by
  intro q hq
  rcases view_create_cases hleaf hq with hq | ⟨hok, ⟨-, rfl, hlen⟩ | hlen⟩
  · exact hsh q hq
  · have := hpath hok
    omega
  · rw [hlen]
    decide

theorem view_ne_none_of_update {v : View} {p q : List Name} {x : Entry} (hp : v p ≠ none)
    (hq : Function.update v p (some x) q ≠ none) : v q ≠ none := by
  by_cases hqp : q = p
  · exact hqp ▸ hp
  · rwa [Function.update_of_ne hqp] at hq

/-- Writing and removing make no path. -/
theorem exec_shallow (hwf : fs.root.Wf) (hsh : fs.Shallow) {op : Op}
    (hop : ∀ path, op = .createFile path ∨ op = .createDir path → (fs.exec op).1 = .ok () →
      (splitPath path).length ≠ maxPathDepth + 1) : (fs.exec op).2.Shallow := by
  cases op with
  | createFile path => exact create_shallow (fun _ _ => rfl) hsh (hop path (Or.inl rfl))
  | createDir path => exact create_shallow (fun _ _ => rfl) hsh (hop path (Or.inr rfl))
  | writeFile path data =>
    rw [exec]
    rcases writeFile_cases hwf path data with ⟨e, he⟩ | ⟨d, buf, ht, hlen⟩
    · rwa [he]
    · rw [writeFile_of_target ht hlen]
      intro q hq
      rw [view_written ht] at hq
      exact hsh q (view_ne_none_of_update (by simp [view_of_writeTarget ht]) hq)
  | appendFile path data =>
    rw [exec]
    rcases appendFile_cases fs path data with ⟨e, he⟩ | ⟨d, buf, ht, hlen⟩
    · rwa [he]
    · rw [appendFile_of_target ht hlen]
      intro q hq
      rw [view_written ht] at hq
      exact hsh q (view_ne_none_of_update (by simp [view_of_writeTarget ht]) hq)
  | remove path =>
    rw [exec]
    rcases remove_cases hwf path with ⟨e, he⟩ | ⟨parent, name, d, cs, victim, ht⟩
    · rwa [he]
    · rw [remove_of_target ht]
      intro q hq
      have hview : (fs.removed parent name d cs).view
          = fs.view.erase (splitPath parent ++ [name]) := Inode.view_graft_remove ht.walk
      rw [hview, View.erase] at hq
      split_ifs at hq with hpre
      · exact absurd rfl hq
      · exact hsh q hq

/-! ## Reaching what was created -/

theorem createFile_reachable (h1 : splitPath path ≠ [])
    (h16 : (splitPath path).length ≤ maxPathDepth) (hok : (fs.createFile path).1 = .ok ()) :
    (fs.createFile path).2.exists_ path = true ∧
      (fs.createFile path).2.readFile path = .ok [] := by
  rw [exists_eq h16, readFile_eq h16, View.read, createFile_view h1 hok, Function.update_self]
  exact ⟨rfl, rfl⟩

theorem createDir_reachable (hwf : fs.root.Wf) (h1 : splitPath path ≠ [])
    (h16 : (splitPath path).length ≤ maxPathDepth) (hok : (fs.createDir path).1 = .ok ()) :
    (fs.createDir path).2.exists_ path = true ∧
      (fs.createDir path).2.listDir path = .ok [] := by
  have hfresh := ((create_ok_iff _ hwf h1 (h16.trans (Nat.le_succ _))).mp hok).fresh
  have hview := createDir_view h1 hok
  refine ⟨by rw [exists_eq h16, hview, Function.update_self]; rfl, ?_⟩
  refine (listDir_ok_iff (exec_wf hwf (.createDir path)) h16 []).mpr ⟨?_, List.Pairwise.nil, ?_⟩
  · change (fs.createDir path).2.view _ = _
    rw [hview, Function.update_self]
  · intro n
    -- nothing lay below a path that was not there
    have hne : splitPath path ++ [n] ≠ splitPath path := by simp
    have hnone : fs.view (splitPath path ++ [n]) = none := by
      rw [view, Inode.view, Inode.walk_append, Option.map_eq_none_iff.mp hfresh]
      rfl
    change n ∈ [] ↔ (fs.createDir path).2.view _ ≠ none
    rw [hview, Function.update_of_ne hne, hnone]
    simp

/-! ## Histories -/

/-- A call of the history makes an inode at a path of 17 components. -/
def Overdeep (fs : FileSystem) (path : Name) : Prop :=
  (splitPath path).length = maxPathDepth + 1 ∧ fs.view.CanCreate fs.inodeCount (splitPath path)

theorem overdeep_iff (newInode : Name → Inode) (hwf : fs.root.Wf) : Overdeep fs path ↔
    (splitPath path).length = maxPathDepth + 1 ∧ (fs.create newInode path).1 = .ok () := by
  refine and_congr_right fun hlen => ?_
  have h1 : splitPath path ≠ [] := List.ne_nil_of_length_pos (by omega)
  exact (create_ok_iff newInode hwf h1 hlen.le).symm

theorem shallow_new : new.Shallow := by
  rintro (_ | ⟨n, ns⟩) hp
  · exact Nat.zero_le _
  · exact absurd rfl hp

/-- The tree stays shallow along a history that makes no path of 17 components. -/
theorem run_shallow (ops : List Op)
    (h : ∀ pre path, (pre ++ [.createFile path] <+: ops ∨ pre ++ [.createDir path] <+: ops) →
      ¬ Overdeep (run pre) path) : (run ops).Shallow := by
  induction ops using List.reverseRecOn with
  | nil => exact shallow_new
  | append_singleton ops op ih =>
    have hpre := ih fun pre path hp => h pre path
      (hp.imp (·.trans (List.prefix_append _ _)) (·.trans (List.prefix_append _ _)))
    rw [run_concat]
    refine exec_shallow (run_wf ops) hpre fun path hop hok hlen => ?_
    rcases hop with rfl | rfl
    · exact h ops path (Or.inl List.prefix_rfl) ((overdeep_iff _ (run_wf ops)).mpr ⟨hlen, hok⟩)
    · exact h ops path (Or.inr List.prefix_rfl) ((overdeep_iff _ (run_wf ops)).mpr ⟨hlen, hok⟩)

/-- A path of 17 components that was just made breaks the limit. -/
theorem not_shallow_of_overdeep {newInode : Name → Inode}
    (hleaf : ∀ n m, (newInode n).findChild m = none) (hwf : fs.root.Wf)
    (h : Overdeep fs path) : ¬ (fs.create newInode path).2.Shallow := by
  obtain ⟨hlen, hok⟩ := (overdeep_iff newInode hwf).mp h
  have h1 : splitPath path ≠ [] := List.ne_nil_of_length_pos (by omega)
  obtain ⟨name, hview⟩ := create_view hleaf h1 hok
  intro hsh
  have := hsh (splitPath path) (by rw [hview, Function.update_self]; simp)
  omega

/-- **Everything created is addressable, exactly in the histories that make no path of 17
components**: every tree on the way is within the depth limit and every successful creation can be
read back at once. -/
theorem addressable_iff (ops : List Op) :
    ((∀ pre, pre <+: ops → (run pre).Shallow) ∧
      (∀ pre path, pre ++ [.createFile path] <+: ops → splitPath path ≠ [] →
        ((run pre).createFile path).1 = .ok () →
          ((run pre).createFile path).2.exists_ path = true ∧
            ((run pre).createFile path).2.readFile path = .ok []) ∧
      (∀ pre path, pre ++ [.createDir path] <+: ops → splitPath path ≠ [] →
        ((run pre).createDir path).1 = .ok () →
          ((run pre).createDir path).2.exists_ path = true ∧
            ((run pre).createDir path).2.listDir path = .ok [])) ↔
    ∀ pre path, (pre ++ [.createFile path] <+: ops ∨ pre ++ [.createDir path] <+: ops) →
      ¬ Overdeep (run pre) path := by
  constructor
  · rintro ⟨hsh, -, -⟩ pre path (hp | hp) hdeep
    · have := hsh _ hp
      rw [run_concat] at this
      exact not_shallow_of_overdeep (fun _ _ => rfl) (run_wf pre) hdeep this
    · have := hsh _ hp
      rw [run_concat] at this
      exact not_shallow_of_overdeep (fun _ _ => rfl) (run_wf pre) hdeep this
  · intro h
    have hshort : ∀ (newInode : Name → Inode) pre path,
        (pre ++ [.createFile path] <+: ops ∨ pre ++ [.createDir path] <+: ops) →
        splitPath path ≠ [] → ((run pre).create newInode path).1 = .ok () →
          (splitPath path).length ≤ maxPathDepth := by
      intro newInode pre path hp h1 hok
      have hnot := h pre path hp
      rw [overdeep_iff newInode (run_wf pre)] at hnot
      rcases create_cases newInode (run pre) path with ⟨e, he⟩ | ⟨parent, name, d, cs, ht⟩
      · rw [he] at hok
        cases hok
      · have hlen := congrArg List.length (ht.splitPath_eq h1)
        rw [List.length_append, List.length_singleton] at hlen
        have := ht.depth
        have : (splitPath path).length ≠ maxPathDepth + 1 := fun hl => hnot ⟨hl, hok⟩
        omega
    refine ⟨fun pre hp => run_shallow pre fun pre' path hp' => h pre' path
      (hp'.imp (·.trans hp) (·.trans hp)), fun pre path hp h1 hok => ?_,
      fun pre path hp h1 hok => ?_⟩
    · exact createFile_reachable h1 (hshort _ pre path (Or.inl hp) h1 hok) hok
    · exact createDir_reachable (run_wf pre) h1 (hshort _ pre path (Or.inr hp) h1 hok) hok

/-- The path `/d/d/…/d` with `k` components. -/
def nested (k : ℕ) : Name := (List.replicate k ['/', 'd']).flatten

/-- Sixteen nested directories take a seventeenth name, which no lookup accepts. -/
theorem create_unreachable :
    let fs := run ((List.range 16).map fun k => .createDir (nested (k + 1)))
    (fs.createFile (nested 17)).1 = .ok () ∧
      (fs.createFile (nested 17)).2.exists_ (nested 17) = false ∧
      (fs.createFile (nested 17)).2.readFile (nested 17) = .error .pathTooDeep := by
  decide +kernel

end FileSystem

end YontiOs.Fs
