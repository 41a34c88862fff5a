import X64Backend.CommandLine.Commands

/-! # A directory in memory

A host without a system: plain files in one directory, and what was written and
printed. There are no other directories, so that no path with a slash leads to a
file.
-/

namespace X64Backend.CommandLine

/-- Files by name, the files created, and what was printed. -/
structure Directory where
  files : List (Bytes × Bytes)
  created : List (Bytes × Bytes)
  printed : Bytes
  deriving DecidableEq, Inhabited

namespace Directory

def ofFiles (files : List (Bytes × Bytes)) : Directory := { files, created := [], printed := [] }

def notFound (path : Bytes) : Bytes := "open " ++ path ++ ": no such file or directory"

def read (d : Directory) (path : Bytes) : Except Bytes Bytes :=
  match (d.created ++ d.files).lookup path with
  | some text => .ok text
  | none => .error (notFound path)

def write (d : Directory) (path text : Bytes) : Except Bytes Directory :=
  if path.contains (Bytes.ofChar '/') then .error (notFound path)
  else .ok { d with created := (path, text) :: d.created.filter fun f => f.1 != path }

def host : Host (StateM Directory) where
  readFile path := return (← get).read path
  writeFile path text := do
    match (← get).write path text with
    | .ok d => set d; return .ok ()
    | .error reason => return .error reason
  print text := modify fun d => { d with printed := d.printed ++ text }

def execute (d : Directory) (words : List Bytes) : Exit × Directory :=
  (CommandLine.execute host words).run d

end Directory

end X64Backend.CommandLine
