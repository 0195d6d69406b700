import YontiOs.Fs.Inode

/-!
# Fs/FileSystem — the operations of the in-memory filesystem

`FileSystem` and its methods, as `fs/mod.rs` has them.  A method that takes `&mut self` returns its
result and the file system it leaves, also when it fails: that a failed call changes nothing is a
theorem (`Fs/View`), not a convention of the model.
-/

namespace YontiOs.Fs

structure FileSystem where
  root : Inode
  inodeCount : ℕ

namespace FileSystem

def new : FileSystem := ⟨.newDirectory ['/'], 1⟩

/-- The body `create_file` and `create_dir` share; they differ in the inode they insert. -/
def create (newInode : Name → Inode) (fs : FileSystem) (path : Name) :
    Except FsError Unit × FileSystem :=
  if fs.inodeCount ≥ maxTotalInodes then (.error .tooManyInodes, fs)
  else
    match resolvePath path with
    | .error e => (.error e, fs)
    | .ok (parent, name) =>
      match findDirMut fs.root parent with
      | .error e => (.error e, fs)
      | .ok dir =>
        if (dir.inode.findChild name).isSome then (.error .alreadyExists, fs)
        else if dirChildCount dir.inode ≥ maxDirChildren then (.error .tooManyChildren, fs)
        else
          let children := BTreeMap.insert name (newInode name) dir.children
          (.ok (), ⟨dir.put (.mk dir.inode.name (.directory children)), fs.inodeCount + 1⟩)

def createFile : FileSystem → Name → Except FsError Unit × FileSystem := create Inode.newFile

def createDir : FileSystem → Name → Except FsError Unit × FileSystem := create Inode.newDirectory

def readFile (fs : FileSystem) (path : Name) : Except FsError (List UInt8) :=
  match findInode fs.root path with
  | .error e => .error e
  | .ok inode => inode.read.elim (.error .notAFile) .ok

def writeFile (fs : FileSystem) (path : Name) (data : List UInt8) :
    Except FsError Unit × FileSystem :=
  if data.length > maxFileSize then (.error .fileTooLarge, fs)
  else
    match findInodeMut fs.root path with
    | .error e => (.error e, fs)
    | .ok r =>
      let (res, inode) := r.inode.write data
      (res, { fs with root := r.put inode })

def appendFile (fs : FileSystem) (path : Name) (data : List UInt8) :
    Except FsError Unit × FileSystem :=
  match findInodeMut fs.root path with
  | .error e => (.error e, fs)
  | .ok r =>
    match r.inode.kind with
    | .directory _ => (.error .notAFile, fs)
    | .file buf =>
      -- `saturating_add` of two `usize` lengths
      if min (buf.length + data.length) (2 ^ 64 - 1) > maxFileSize then (.error .fileTooLarge, fs)
      else
        let (res, inode) := r.inode.append data
        (res, { fs with root := r.put inode })

def listDir (fs : FileSystem) (path : Name) : Except FsError (List Name) :=
  match findInode fs.root path with
  | .error e => .error e
  | .ok inode =>
    match inode.kind with
    | .directory children => .ok (children.map Prod.fst)
    | .file _ => .error .notADirectory

def exists_ (fs : FileSystem) (path : Name) : Bool :=
  (findInode fs.root path).isOk

def remove (fs : FileSystem) (path : Name) : Except FsError Unit × FileSystem :=
  match resolvePath path with
  | .error e => (.error e, fs)
  | .ok (parent, name) =>
    match findDirMut fs.root parent with
    | .error e => (.error e, fs)
    | .ok dir =>
      match dir.inode.removeChild name with
      | (.error e, inode) => (.error e, { fs with root := dir.put inode })
      -- `saturating_sub(1)`, whatever the size of the subtree that went away
      | (.ok _, inode) => (.ok (), ⟨dir.put inode, fs.inodeCount - 1⟩)

/-! ## Histories -/

/-- The calls that take `&mut self`. -/
inductive Op
  | createFile (path : Name)
  | createDir (path : Name)
  | writeFile (path : Name) (data : List UInt8)
  | appendFile (path : Name) (data : List UInt8)
  | remove (path : Name)

def exec (fs : FileSystem) : Op → Except FsError Unit × FileSystem
  | .createFile path => fs.createFile path
  | .createDir path => fs.createDir path
  | .writeFile path data => fs.writeFile path data
  | .appendFile path data => fs.appendFile path data
  | .remove path => fs.remove path

/-- The file system a history of calls leaves, starting from `FileSystem::new()`. -/
def run (ops : List Op) : FileSystem := ops.foldl (fun fs op => (fs.exec op).2) new

@[simp] theorem run_nil : run [] = new := rfl

@[simp] theorem run_concat (ops : List Op) (op : Op) : run (ops ++ [op]) = ((run ops).exec op).2 :=
  List.foldl_concat ..

end FileSystem

end YontiOs.Fs
