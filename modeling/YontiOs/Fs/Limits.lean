import YontiOs.Fs.Accounting

/-!
# Fs/Limits — what every inode of a reachable tree satisfies

`Everywhere P` says that every inode of a tree satisfies `P`.  When `P` looks no deeper than the
names of a directory's children, a graft keeps it where the grafted tree has it, and one lemma
(`exec_everywhere`) tells what a call has to be checked for.

Two such properties: the documented limits, which every history keeps (`limits_hold`), and the
legality of names.  `resolve_path` rejects the empty name in one of its two branches only, so a path
of slashes alone makes a child with an empty name (`create_nameless`), and nothing else makes an
illegal one (`legal_names_iff`).
-/

namespace YontiOs.Fs

namespace Inode

variable {P : Inode → Prop} {i x old c : Inode} {n d : Name} {p : List Name}
  {cs : List (Name × Inode)}

/-- **Every inode of the tree satisfies `P`.** -/
inductive Everywhere (P : Inode → Prop) : Inode → Prop
  | file {d : Name} {data : List UInt8} (h : P (mk d (.file data))) :
      Everywhere P (mk d (.file data))
  | directory {d : Name} {cs : List (Name × Inode)} (h : P (mk d (.directory cs)))
      (hcs : ∀ e ∈ cs, Everywhere P e.2) : Everywhere P (mk d (.directory cs))

/-- Overwriting a child does not touch `P`. -/
def KeptByOverwrite (P : Inode → Prop) : Prop :=
  ∀ d cs n c x, BTreeMap.Ordered cs → BTreeMap.get n cs = some c → P (mk d (.directory cs)) →
    P (mk d (.directory (BTreeMap.insert n x cs)))

namespace Everywhere

theorem here (h : Everywhere P i) : P i := by
  cases h with
  | file h => exact h
  | directory h _ => exact h

theorem children (h : Everywhere P (mk d (.directory cs))) : ∀ e ∈ cs, Everywhere P e.2 := by
  cases h with
  | directory _ hcs => exact hcs

theorem child (hwf : Wf (mk d (.directory cs))) (h : Everywhere P (mk d (.directory cs)))
    (hc : BTreeMap.get n cs = some c) : Everywhere P c :=
  h.children _ ((BTreeMap.perm_remove hwf.ordered hc).mem_iff.mpr List.mem_cons_self)

theorem insert (h : Everywhere P (mk d (.directory cs))) (hx : Everywhere P x)
    (hP : P (mk d (.directory (BTreeMap.insert n x cs)))) :
    Everywhere P (mk d (.directory (BTreeMap.insert n x cs))) := by
  refine .directory hP fun e he => ?_
  rcases BTreeMap.mem_insert he with rfl | he
  · exact hx
  · exact h.children e he

theorem walk (hwf : i.Wf) (h : Everywhere P i) (hw : i.walk p = some old) : Everywhere P old := by
  induction p generalizing i with
  | nil =>
    obtain rfl := Option.some.inj (walk_nil.symm.trans hw)
    exact h
  | cons n ns ih =>
    obtain ⟨d, cs, c, rfl, hc, hw⟩ := walk_cons_eq_some hw
    exact ih (hwf.child hc) (h.child hwf hc) hw

/-- **A graft keeps what the grafted tree has.** -/
theorem graft (hP : KeptByOverwrite P) (hwf : i.Wf) (h : Everywhere P i) (hw : i.walk p = some old)
    (hx : Everywhere P x) : Everywhere P (i.graft p x) := by
  induction p generalizing i with
  | nil => rwa [graft_nil]
  | cons n ns ih =>
    obtain ⟨d, cs, c, rfl, hc, hw⟩ := walk_cons_eq_some hw
    rw [graft_cons hc]
    exact h.insert (ih (hwf.child hc) (h.child hwf hc) hw) (hP d cs n c _ hwf.ordered hc h.here)

end Everywhere

end Inode

namespace FileSystem

open Inode

variable {P : Inode → Prop} {fs : FileSystem} {op : Op} {path parent name : Name}

/-- **One call, checked at the inodes it writes**: a directory that gets a child, a directory that
loses one, an empty directory, and a file of admissible size. -/
theorem exec_everywhere (hP : KeptByOverwrite P) (hwf : fs.root.Wf) (h : Everywhere P fs.root)
    (hcreate : ∀ path parent name d cs, (op = .createFile path ∨ op = .createDir path) →
      CreateTarget fs path parent name d cs → P (.mk d (.directory cs)) →
        ∀ x, P (.mk d (.directory (BTreeMap.insert name x cs))))
    (hremove : ∀ d cs n, P (.mk d (.directory cs)) → P (.mk d (.directory (BTreeMap.remove n cs))))
    (hdir : ∀ d, P (.mk d (.directory [])))
    (hfile : ∀ d data, data.length ≤ maxFileSize → P (.mk d (.file data))) :
    Everywhere P (fs.exec op).2.root := by
  rcases exec_cases hwf op with he | ⟨path, _, name, d, cs, x, hx, ht, he⟩ |
    ⟨_, _, name, d, cs, _, ht, he⟩ | ⟨_, d, _, data, ht, hlen, he⟩ <;> rw [he]
  · exact h
  · have hnew : Everywhere P x := by
      rcases hx with ⟨-, rfl⟩ | ⟨-, rfl⟩
      · exact .file (hfile name [] (Nat.zero_le _))
      · exact .directory (hdir name) fun e he => absurd he List.not_mem_nil
    have hold := h.walk hwf ht.walk
    exact h.graft hP hwf ht.walk (hold.insert hnew
      (hcreate path _ name d cs (hx.imp And.left And.left) ht hold.here x))
  · have hold := h.walk hwf ht.walk
    exact h.graft hP hwf ht.walk (.directory (hremove d cs name hold.here) fun e he =>
      hold.children e (List.mem_of_mem_filter he))
  · exact h.graft hP hwf ht.walk (.file (hfile d data hlen))

/-! ## The documented limits -/

/-- A file and a directory within their limits. -/
def WithinLimits (i : Inode) : Prop :=
  match i.kind with
  | .file data => data.length ≤ maxFileSize
  | .directory children => children.length ≤ maxDirChildren

theorem withinLimits_keptByOverwrite : KeptByOverwrite WithinLimits := by
  intro d cs n c x hord hc h
  have hin := (BTreeMap.insert_perm (k := n) (v := x) hord).length_eq
  have hout := (BTreeMap.perm_remove hord hc).length_eq
  have h : cs.length ≤ maxDirChildren := h
  show (BTreeMap.insert n x cs).length ≤ maxDirChildren
  simp only [List.length_cons] at hin hout
  omega

theorem exec_withinLimits (hwf : fs.root.Wf) (h : Everywhere WithinLimits fs.root) (op : Op) :
    Everywhere WithinLimits (fs.exec op).2.root := by
  refine exec_everywhere withinLimits_keptByOverwrite hwf h ?_ ?_ (fun _ => Nat.zero_le _)
    fun _ _ hlen => hlen
  · intro path parent name d cs _ ht _ x
    have hord := (hwf.walk ht.walk).ordered
    have hin := (BTreeMap.insert_perm (k := name) (v := x) hord).length_eq
    rw [BTreeMap.remove_eq_self ht.fresh, List.length_cons] at hin
    exact hin.trans_le ht.width
  · exact fun d cs n h => (List.length_filter_le _ cs).trans h

theorem run_withinLimits (ops : List Op) : Everywhere WithinLimits (run ops).root := by
  induction ops using List.reverseRecOn with
  | nil => exact .directory (Nat.zero_le _) fun e he => absurd he List.not_mem_nil
  | append_singleton ops op ih =>
    rw [run_concat]
    exact exec_withinLimits (run_wf ops) ih op

/-- **The documented limits hold in every state**: at most 512 inodes, at most 128 children in each
directory, at most 64 KiB in each file. -/
theorem limits_hold (ops : List Op) :
    (run ops).root.count ≤ maxTotalInodes ∧ Everywhere WithinLimits (run ops).root :=
  ⟨(run_countOk ops).count_le.trans (run_countOk ops).le_max, run_withinLimits ops⟩

/-! ## Names -/

/-- A name a lookup can reach: one nonempty component, and not a dot entry. -/
def LegalName (name : Name) : Prop := name ≠ [] ∧ '/' ∉ name ∧ ¬ IsDots name

/-- The children of the inode have legal names. -/
def LegalChildren (i : Inode) : Prop :=
  match i.kind with
  | .file _ => True
  | .directory children => ∀ e ∈ children, LegalName e.1

/-- Every child in the tree has a legal name. -/
def LegalNames (fs : FileSystem) : Prop := Everywhere LegalChildren fs.root

theorem legalChildren_insert {d n : Name} {cs : List (Name × Inode)} (hn : LegalName n)
    (h : LegalChildren (.mk d (.directory cs))) (x : Inode) :
    LegalChildren (.mk d (.directory (BTreeMap.insert n x cs))) := by
  intro e he
  rcases BTreeMap.mem_insert he with rfl | he
  · exact hn
  · exact h e he

theorem legalChildren_keptByOverwrite : KeptByOverwrite LegalChildren := by
  intro d cs n c x hord hc h
  have hmem := (BTreeMap.perm_remove hord hc).mem_iff.mpr List.mem_cons_self
  exact legalChildren_insert (h (n, c) hmem) h x

/-- The path is slashes alone, two or more. -/
def OnlySlashes (path : Name) : Prop := 2 ≤ path.length ∧ ∀ c ∈ path, c = '/'

theorem resolvePath_of_onlySlashes (h : OnlySlashes path) : resolvePath path = .ok ([], []) := by
  have hnil : splitPath path = [] := by rw [splitPath_eq_pieces, Str.pieces_eq_nil_iff]; exact h.2
  refine (resolvePath_of_eq_nil hnil).resolve_left fun herr => ?_
  have hguard : ¬ (path = [] ∨ path = ['/']) := by
    rintro (rfl | rfl) <;> exact absurd h.1 (by decide)
  rw [resolvePath, if_neg hguard] at herr
  have htrim : Str.trimMatches '/' path = [] := by
    rw [Str.trimMatches, List.dropWhile_eq_nil_iff.mpr fun c hc => decide_eq_true (h.2 c hc)]
    rfl
  rw [htrim] at herr
  cases herr

/-- **What `resolve_path` lets through** as a name: a legal one, or the empty one from slashes. -/
theorem resolvePath_name (h : resolvePath path = .ok (parent, name)) :
    LegalName name ∨ parent = [] ∧ name = [] ∧ OnlySlashes path := by
  by_cases hnil : splitPath path = []
  · right
    have hsl : ∀ c ∈ path, c = '/' := by rwa [splitPath_eq_pieces, Str.pieces_eq_nil_iff] at hnil
    have hlen : 2 ≤ path.length := by
      rcases path with _ | ⟨c, _ | ⟨c', path⟩⟩
      · simp [resolvePath] at h
      · obtain rfl := hsl c List.mem_cons_self
        simp [resolvePath] at h
      · exact Nat.le_add_left 2 path.length
    rw [resolvePath_of_onlySlashes ⟨hlen, hsl⟩] at h
    obtain ⟨rfl, rfl⟩ := Prod.mk.inj (Except.ok.inj h)
    exact ⟨rfl, rfl, hlen, hsl⟩
  · left
    obtain ⟨parent', -, hres⟩ := resolvePath_of_ne_nil hnil
    rw [hres] at h
    split_ifs at h with hdots
    obtain ⟨-, rfl⟩ := Prod.mk.inj (Except.ok.inj h)
    have hmem : (splitPath path).getLast hnil ∈ Str.pieces '/' path :=
      splitPath_eq_pieces path ▸ List.getLast_mem hnil
    exact ⟨Str.ne_nil_of_mem_pieces hmem, Str.notMem_of_mem_pieces hmem, hdots⟩

/-- The call makes a child without a name in the root: its path is slashes alone, and there is room
for another inode and another child. -/
def CreatesNameless (fs : FileSystem) (op : Op) : Prop :=
  ∃ path d cs, (op = .createFile path ∨ op = .createDir path) ∧ OnlySlashes path ∧
    fs.inodeCount < maxTotalInodes ∧ fs.root = .mk d (.directory cs) ∧ cs.length < maxDirChildren

theorem CreatesNameless.target {d : Name} {cs : List (Name × Inode)} (hlegal : LegalNames fs)
    (hpath : OnlySlashes path) (hroom : fs.inodeCount < maxTotalInodes)
    (hroot : fs.root = .mk d (.directory cs)) (hwidth : cs.length < maxDirChildren) :
    CreateTarget fs path [] [] d cs where
  resolve := resolvePath_of_onlySlashes hpath
  room := hroom
  depth := Nat.zero_le _
  walk := by
    rw [← hroot]
    exact walk_nil
  fresh := by
    rw [LegalNames, hroot] at hlegal
    exact BTreeMap.get_eq_none_iff.mpr fun e he => (hlegal.here e he).1
  width := hwidth

/-- **One call keeps all names legal unless it makes a child without one.** -/
theorem exec_legalNames_iff (hwf : fs.root.Wf) (h : LegalNames fs) (op : Op) :
    LegalNames (fs.exec op).2 ↔ ¬ CreatesNameless fs op := by
  constructor
  · rintro hlegal ⟨path, d, cs, hop, hpath, hroom, hroot, hwidth⟩
    have ht := CreatesNameless.target h hpath hroom hroot hwidth
    obtain ⟨x, hx⟩ : ∃ x, (fs.exec op).2 = fs.created [] [] d cs x := by
      rcases hop with rfl | rfl
      · exact ⟨_, congrArg Prod.snd (create_of_target ht)⟩
      · exact ⟨_, congrArg Prod.snd (create_of_target ht)⟩
    rw [hx] at hlegal
    have hmem : ([], x) ∈ BTreeMap.insert [] x cs :=
      (BTreeMap.insert_perm (hroot ▸ hwf).ordered).mem_iff.mpr List.mem_cons_self
    exact (Everywhere.here hlegal _ hmem).1 rfl
  · intro hnot
    refine exec_everywhere legalChildren_keptByOverwrite hwf h ?_ ?_ ?_ fun _ _ _ => trivial
    · intro path parent name d cs hop ht hcs x
      rcases resolvePath_name ht.resolve with hname | ⟨rfl, rfl, hpath⟩
      · exact legalChildren_insert hname hcs x
      · exact absurd ⟨path, d, cs, hop, hpath, ht.room, Option.some.inj ht.walk, ht.width⟩ hnot
    · exact fun d cs n hcs e he => hcs e (List.mem_of_mem_filter he)
    · exact fun d e he => absurd he List.not_mem_nil

/-- **All names are legal in all states of a history, exactly if no call of it makes a child without
a name.** -/
theorem legal_names_iff (ops : List Op) : (∀ pre, pre <+: ops → LegalNames (run pre)) ↔
    ∀ pre op, pre ++ [op] <+: ops → ¬ CreatesNameless (run pre) op := by
  constructor
  · intro h pre op hp
    have hpre := h pre ((List.prefix_append pre [op]).trans hp)
    have hnext := h _ hp
    rw [run_concat] at hnext
    exact (exec_legalNames_iff (run_wf pre) hpre op).mp hnext
  · intro h pre
    induction pre using List.reverseRecOn with
    | nil =>
      exact fun _ => Everywhere.directory (fun e he => absurd he List.not_mem_nil)
        fun e he => absurd he List.not_mem_nil
    | append_singleton pre op ih =>
      intro hp
      rw [run_concat]
      exact (exec_legalNames_iff (run_wf pre) (ih ((List.prefix_append pre [op]).trans hp)) op).mpr
        (h pre op hp)

/-- `create_file("//")` makes a child of the root whose name is empty. -/
theorem create_nameless : (new.createFile ['/', '/']).1 = .ok () ∧
    (run [.createFile ['/', '/']]).listDir ['/'] = .ok [[]] := by decide

end FileSystem

end YontiOs.Fs
