/-!
# Directories

A working directory given by its files.  Paths are read from the working
directory; nothing is known of what lies outside it.
-/

namespace Lox

inductive ReadFailure where
  | notFound
  | isDirectory
  | notDirectory
  | nameTooLong
  | other (reason : String)
deriving DecidableEq, Repr

namespace ReadFailure

def reason : ReadFailure → String
  | notFound => "No such file or directory"
  | isDirectory => "Is a directory"
  | notDirectory => "Not a directory"
  | nameTooLong => "File name too long"
  | other reason => reason

end ReadFailure

structure Directory where
  files : List (List String × ByteArray)

namespace Directory

inductive Position where
  | inside (path : List String)
  | outside

def parts (path : String) : List String := path.splitOn "/"

def ofFiles (files : List (String × ByteArray)) : Directory :=
  ⟨files.map fun (path, content) => (parts path, content)⟩

def file? (d : Directory) (path : List String) : Option ByteArray := d.files.lookup path

/-- Whether a path leads to the working directory or to one that holds a file. -/
def isDirectory (d : Directory) (path : List String) : Bool :=
  path.isEmpty || d.files.any fun entry => path.isPrefixOf entry.1 && path != entry.1

def maxName : Nat := 255

def maxPath : Nat := 4095

def step (d : Directory) (position : Position) (part : String) : Except ReadFailure Position :=
  match position with
  | .outside =>
      if maxName < part.utf8ByteSize then .error .nameTooLong
      else if part ∈ ["", ".", ".."] then .ok .outside
      else .error .notFound
  | .inside path =>
      if (d.file? path).isSome then .error .notDirectory
      else if maxName < part.utf8ByteSize then .error .nameTooLong
      else if part ∈ ["", "."] then .ok position
      else if part = ".." then
        .ok (if path.isEmpty then .outside else .inside path.dropLast)
      else
        let next := path ++ [part]
        if (d.file? next).isSome || d.isDirectory next then .ok (.inside next)
        else .error .notFound

def follow (d : Directory) (position : Position) : List String → Except ReadFailure Position
  | [] => .ok position
  | part :: rest => do d.follow (← d.step position part) rest

def read (d : Directory) (path : String) : Except ReadFailure ByteArray := do
  if path.isEmpty then
    throw .notFound
  if maxPath < path.utf8ByteSize then
    throw .nameTooLong
  let start := if path.toList.head? = some '/' then Position.outside else .inside []
  match ← d.follow start (parts path) with
  | .outside => throw .isDirectory
  | .inside place =>
      match d.file? place with
      | some content => return content
      | none => throw .isDirectory

end Directory
end Lox
