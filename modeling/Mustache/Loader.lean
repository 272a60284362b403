import Mustache.Error
import Mustache.Table
import Mustache.Text.Search

/-! # Loaders

Where the text of templates comes from, by name: a table in memory, or a tree of files.  A loader
hands out bytes; a template is text only if its bytes are valid UTF-8.
-/

namespace Mustache

/-! ## Stored templates -/

inductive Stored
  | text (s : String)
  | bytes (content : ByteArray)
  /-- Something that fails when it is read. -/
  | broken (cause : String)

/-- The text of what is stored, or the cause why there is none. -/
def Stored.read : Stored → Except String String
  | .text s => .ok s
  | .bytes content =>
    match String.fromUTF8? content with
    | some s => .ok s
    | none => .error "stream did not contain valid UTF-8"
  | .broken cause => .error cause

/-! ## Trees of files -/

/-- The files below a directory, by the segments of their paths.  The directories below it are
    those on the way to a file. -/
structure FileTree where
  files : Table (List String) Stored

namespace FileTree

inductive Node
  | file (content : Stored)
  | directory

inductive Fault
  | notFound
  /-- The path goes on after a file. -/
  | notDirectory
  /-- A segment, or the whole path, is longer than the system allows. -/
  | nameTooLong
  /-- The path holds a NUL character. -/
  | nul
deriving DecidableEq

/-- The tree with files of slash-separated names; a name that leads out of the tree is left
    out. -/
def ofNames (files : List (String × Stored)) : FileTree :=
  ⟨.ofList (files.filterMap fun f =>
    let segs := (Text.splitAtChar '/' f.1.toList).map String.ofList
    if segs.contains ".." then none else some (segs.filter fun s => s ≠ "" && s ≠ ".", f.2))⟩

def node? (t : FileTree) (path : List String) : Option Node :=
  match t.files.get? path with
  | some content => some (.file content)
  | none =>
    if path.isEmpty || t.files.any (fun e => path.isPrefixOf e.1) then some .directory else none

/-- How many bytes a segment of a path may have. -/
def maxSegment : Nat := 255

/-- How many bytes a path has to stay below. -/
def maxPath : Nat := 4096

/-- What further segments lead to from a path. -/
def descend (t : FileTree) (path : List String) : List String → Except Fault Node
  | [] =>
    match t.node? path with
    | some node => .ok node
    | none => .error .notFound
  | seg :: segs =>
    match t.node? path with
    | none => .error .notFound
    | some (.file _) => .error .notDirectory
    | some .directory =>
      -- An empty segment stays in the directory, but asks for it to be one.
      if seg = "" ∨ seg = "." then descend t path segs
      else if maxSegment < seg.utf8ByteSize then .error .nameTooLong
      else descend t (path ++ [seg]) segs

/-- The segments of a name without the slashes before it, unless one of them leads out of its
    directory. -/
def segments? (name : String) : Option (List String) :=
  let relative := name.toList.dropWhile (· == '/')
  let segs := (Text.splitAtChar '/' relative).map String.ofList
  if segs.contains ".." then none else some segs

/-- What segments below the root lead to. -/
def lookUp (t : FileTree) (segs : List String) : Except Fault Node :=
  if segs.any (fun seg => seg.toList.contains '\x00') then .error .nul
  else if maxPath ≤ segs.foldr (fun seg n => seg.utf8ByteSize + 1 + n) 0 then .error .nameTooLong
  else t.descend [] segs

def read (t : FileTree) (name : String) : Except LoadError String :=
  match segments? name with
  | none => .error (.notFound name)
  | some segs =>
    match t.lookUp segs with
    | .error .notFound => .error (.notFound name)
    | .error .notDirectory => .error (.unreadable name "Not a directory (os error 20)")
    | .error .nameTooLong => .error (.unreadable name "File name too long (os error 36)")
    | .error .nul => .error (.unreadable name "file name contained an unexpected NUL byte")
    | .ok .directory => .error (.unreadable name "Is a directory (os error 21)")
    | .ok (.file content) => content.read.mapError (.unreadable name)

end FileTree

/-! ## Loaders -/

inductive Loader
  | memory (templates : Table String Stored)
  | files (tree : FileTree)

def Loader.read (l : Loader) (name : String) : Except LoadError String :=
  match l with
  | .memory templates =>
    match templates.get? name with
    | some content => content.read.mapError (.unreadable name)
    | none => .error (.notFound name)
  | .files tree => tree.read name

namespace Loader

def templates : Loader → Table String Stored
  | .memory templates => templates
  | .files _ => []

/-- The loader with a template put into memory; a tree of files stays as it is. -/
def insert (name source : String) : Loader → Loader
  | .memory templates => .memory (templates.insert name (.text source))
  | .files tree => .files tree

def erase (name : String) : Loader → Loader
  | .memory templates => .memory (templates.erase name)
  | .files tree => .files tree

end Loader

end Mustache
