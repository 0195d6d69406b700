import YontiOs.Machinery.BTreeMap
import YontiOs.Machinery.Str

/-!
# Fs/Inode — inodes, path parsing and lookup

The tree of `fs/inode.rs` and the free functions of `fs/mod.rs` that find their way in it.

A method taking `&mut self` returns its result together with the value `self` is left with.  A
`&mut Inode` into the tree is an `InodeRef`: the inode it points at and the root that results from
writing another inode there.
-/

namespace YontiOs.Fs

/-- A `str`: a file name or a path. -/
abbrev Name := List Char

inductive FsError
  | notFound
  | alreadyExists
  | notAFile
  | notADirectory
  | invalidPath
  | fileTooLarge
  | tooManyChildren
  | pathTooDeep
  | tooManyInodes
  | directoryNotEmpty
  deriving DecidableEq, Repr

def maxFileSize : ℕ := 65536
def maxDirChildren : ℕ := 128
def maxPathDepth : ℕ := 16
def maxTotalInodes : ℕ := 512

/-- A file with its bytes, or a directory with its children in name order. -/
inductive InodeKind (ι : Type)
  | file (data : List UInt8)
  | directory (children : List (Name × ι))

inductive Inode
  | mk (name : Name) (kind : InodeKind Inode)

namespace Inode

def name : Inode → Name
  | mk name _ => name

def kind : Inode → InodeKind Inode
  | mk _ kind => kind

def newFile (name : Name) : Inode := mk name (.file [])

def newDirectory (name : Name) : Inode := mk name (.directory [])

def read (i : Inode) : Option (List UInt8) :=
  match i.kind with
  | .file data => some data
  | .directory _ => none

def write (i : Inode) (data : List UInt8) : Except FsError Unit × Inode :=
  match i.kind with
  | .file _ => (.ok (), mk i.name (.file data))
  | .directory _ => (.error .notAFile, i)

def append (i : Inode) (data : List UInt8) : Except FsError Unit × Inode :=
  match i.kind with
  | .file buf => (.ok (), mk i.name (.file (buf ++ data)))
  | .directory _ => (.error .notAFile, i)

def findChild (i : Inode) (name : Name) : Option Inode :=
  match i.kind with
  | .directory children => BTreeMap.get name children
  | .file _ => none

def removeChild (i : Inode) (name : Name) : Except FsError Inode × Inode :=
  match i.kind with
  | .directory children =>
    match BTreeMap.get name children with
    | some child => (.ok child, mk i.name (.directory (BTreeMap.remove name children)))
    | none => (.error .notFound, i)
  | .file _ => (.error .notADirectory, i)

end Inode

/-- A `&mut Inode` into a tree: the inode, and the root once the inode is overwritten. -/
structure InodeRef where
  inode : Inode
  put : Inode → Inode

/-- `Inode::find_child_mut`.  Writing through `BTreeMap::get_mut` replaces the value of a key that
is present, which is what `insert` does to it. -/
def InodeRef.findChildMut (r : InodeRef) (name : Name) : Option InodeRef :=
  match r.inode.kind with
  | .directory children =>
    (BTreeMap.get name children).map fun child =>
      ⟨child, fun i => r.put (.mk r.inode.name (.directory (BTreeMap.insert name i children)))⟩
  | .file _ => none

/-- What `find_dir_mut` returns: the `unreachable!()` after it is unreachable by type. -/
structure DirRef extends InodeRef where
  children : List (Name × Inode)
  kind_eq : inode.kind = .directory children

def dirChildCount (dir : Inode) : ℕ :=
  match dir.kind with
  | .directory children => children.length
  | .file _ => 0

/-! ## Paths -/

def splitPath (path : Name) : List Name :=
  ((Str.trimMatches '/' path).splitOn '/').filter (· ≠ [])

def resolvePath (path : Name) : Except FsError (Name × Name) :=
  if path = [] ∨ path = ['/'] then .error .invalidPath
  else
    let path := Str.trimMatches '/' path
    match Str.rfind '/' path with
    | some idx =>
      let parent := path.take idx
      let name := path.drop (idx + 1)
      if name = [] ∨ name = ['.'] ∨ name = ['.', '.'] then .error .invalidPath
      else .ok (parent, name)
    | none =>
      if path = ['.'] ∨ path = ['.', '.'] then .error .invalidPath
      else .ok ([], path)

/-- The names `resolve_path` refuses as a last component. -/
def IsDots (name : Name) : Prop := name = ['.'] ∨ name = ['.', '.']

instance (name : Name) : Decidable (IsDots name) := inferInstanceAs (Decidable (_ ∨ _))

theorem splitPath_eq_pieces (path : Name) : splitPath path = Str.pieces '/' path :=
  Str.pieces_trimMatches path

/-- **The two parsers agree**: on a path with a component, `resolve_path` returns the last one, and
a parent path that splits into the others. -/
theorem resolvePath_of_ne_nil {path : Name} (h : splitPath path ≠ []) :
    ∃ parent, splitPath parent = (splitPath path).dropLast ∧
      resolvePath path = if IsDots ((splitPath path).getLast h) then .error .invalidPath
        else .ok (parent, (splitPath path).getLast h) := by
  have hguard : ¬ (path = [] ∨ path = ['/']) := by
    rintro (rfl | rfl) <;> exact h (by decide)
  by_cases hslash : '/' ∈ Str.trimMatches '/' path
  · obtain ⟨parent, name, hcut, hname⟩ := Str.exists_last_cut hslash
    obtain ⟨hne, hpieces⟩ := Str.pieces_trim_cut hcut hname
    have hsplit : splitPath path = splitPath parent ++ [name] := by
      rw [splitPath_eq_pieces, splitPath_eq_pieces, hpieces]
    refine ⟨parent, by simp [hsplit], ?_⟩
    have hlast : (splitPath path).getLast h = name := by simp [hsplit]
    have hdrop : (parent ++ '/' :: name).drop (parent.length + 1) = name := by
      simp [List.drop_append]
    simp only [resolvePath, if_neg hguard, hcut, Str.rfind_append_cons hname, hlast,
      List.take_left', hdrop, hne, false_or]
    rfl
  · have htne : Str.trimMatches '/' path ≠ [] := fun ht => h (by simp [splitPath, ht])
    have hsplit : splitPath path = [Str.trimMatches '/' path] :=
      Str.pieces_of_notMem hslash htne
    refine ⟨[], by simp [hsplit]; decide, ?_⟩
    have hlast : (splitPath path).getLast h = Str.trimMatches '/' path := by simp [hsplit]
    simp only [resolvePath, if_neg hguard, Str.rfind_eq_none hslash, hlast]
    rfl

/-- A path of slashes alone either is refused or names the root's child with the empty name. -/
theorem resolvePath_of_eq_nil {path : Name} (h : splitPath path = []) :
    resolvePath path = .error .invalidPath ∨ resolvePath path = .ok ([], []) := by
  by_cases hguard : path = [] ∨ path = ['/']
  · exact Or.inl (by simp only [resolvePath, if_pos hguard])
  · right
    have hnil : Str.trimMatches '/' path = [] := by
      by_contra hne
      by_cases hslash : '/' ∈ Str.trimMatches '/' path
      · obtain ⟨a, b, hcut, hb⟩ := Str.exists_last_cut hslash
        have := (Str.pieces_trim_cut hcut hb).2
        rw [← splitPath_eq_pieces, h] at this
        simp at this
      · have := Str.pieces_of_notMem hslash hne
        rw [Str.pieces_trimMatches, ← splitPath_eq_pieces, h] at this
        simp at this
    simp [resolvePath, hguard, hnil, Str.rfind]

/-! ## Lookup -/

/-- One turn of the loop of `find_inode`: `find_child(part).ok_or(NotFound)?`. -/
def descend (current : Inode) (part : Name) : Except FsError Inode :=
  (current.findChild part).elim (.error .notFound) .ok

/-- The same turn through a mutable reference. -/
def descendMut (current : InodeRef) (part : Name) : Except FsError InodeRef :=
  (current.findChildMut part).elim (.error .notFound) .ok

def findInode (root : Inode) (path : Name) : Except FsError Inode :=
  let parts := splitPath path
  if parts.length > maxPathDepth then .error .pathTooDeep
  else parts.foldlM descend root

def findInodeMut (root : Inode) (path : Name) : Except FsError InodeRef :=
  let parts := splitPath path
  if parts.length > maxPathDepth then .error .pathTooDeep
  else parts.foldlM descendMut ⟨root, id⟩

def findDirMut (root : Inode) (path : Name) : Except FsError DirRef :=
  match findInodeMut root path with
  | .error e => .error e
  | .ok dir =>
    match h : dir.inode.kind with
    | .directory children => .ok { dir with children := children, kind_eq := h }
    | .file _ => .error .notADirectory

end YontiOs.Fs
