import RecordLedger.Settings
import RecordLedger.Store.Basic

/-!
A working directory as commands see it: files that hold text and files that hold a store. Paths are
taken relative to it; a directory inside it exists if it is listed or a file lies below it.
-/

namespace RecordLedger

inductive File
  | text (s : String)
  | store (s : Store)
deriving DecidableEq

structure Directory where
  files : List (List String × File)
  directories : List (List String)

namespace Directory

def empty : Directory := ⟨[], []⟩

def parts (path : String) : List String :=
  (splitAtSlashes path.toList).filter fun part => part ≠ "" && part ≠ "."
where
  splitAtSlashes : List Char → List String
    | [] => [""]
    | c :: cs =>
      match splitAtSlashes cs with
      | [] => [c.toString]
      | part :: rest => if c = '/' then "" :: part :: rest else (c.toString ++ part) :: rest

/-- A path that stays inside the directory. -/
def resolve? (path : String) : Option (List String) :=
  let ps := parts path
  if path.toList.head? = some '/' || ps.contains ".." then none else some ps

def file? (d : Directory) (path : String) : Option File := do
  let ps ← resolve? path
  (d.files.find? (·.1 = ps)).map (·.2)

def hasDirectory (d : Directory) (ps : List String) : Bool :=
  ps.isEmpty || d.directories.contains ps ||
    d.files.any fun (qs, _) => ps.length < qs.length && qs.take ps.length == ps

def isDirectory (d : Directory) (path : String) : Bool :=
  (resolve? path).any d.hasDirectory

def has (d : Directory) (path : String) : Bool := (d.file? path).isSome || d.isDirectory path

/-- Puts a file at a path, in place of the one that is there. The directory around it has to exist,
and no directory may be there. -/
def put? (d : Directory) (path : String) (file : File) : Option Directory := do
  let ps ← resolve? path
  if d.hasDirectory ps || !d.hasDirectory ps.dropLast then none
  else some { d with files := (ps, file) :: d.files.filter (·.1 ≠ ps) }

def text? (d : Directory) (path : String) : Option String :=
  match d.file? path with
  | some (.text s) => some s
  | _ => none

/-- Opens the store at a path, which is made if nothing is there or the file is empty. -/
def openStore? (d : Directory) (path : String) : Option (Store × Directory) :=
  match d.file? path with
  | some (.store s) => some (s, d)
  | some (.text s) =>
    if s.isEmpty then (d.put? path (.store .empty)).map (Store.empty, ·) else none
  | none => (d.put? path (.store .empty)).map (Store.empty, ·)

/-- Settings without a path, and paths of no file, open a store that is gone at the end. -/
def isPrivate (settings : StoreSettings) : Bool :=
  match settings.path with
  | none => true
  | some path => path = "" || path = ":memory:"

/-- The settings in a file; the defaults where there is none. -/
def settings (d : Directory) (path : String) : Except String Settings :=
  match d.file? path with
  | some (.text s) => (Settings.read s).mapError (·.message path)
  | some (.store _) => .error ("reading " ++ path)
  | none => if d.isDirectory path then .error ("reading " ++ path) else .ok .default

/-- The settings of a store in a file of their own, which has to exist. -/
def storeSettings (d : Directory) (path : String) : Except Store.Error StoreSettings :=
  match d.file? path with
  | some (.text s) =>
    match StoreSettings.ofText? s with
    | some settings => .ok settings
    | none => .error (.configuration (path ++ ": malformed settings"))
  | some (.store _) => .error (.io "stream did not contain valid UTF-8")
  | none =>
    if d.isDirectory path then .error (.io "Is a directory (os error 21)")
    else .error (.io "No such file or directory (os error 2)")

end Directory
end RecordLedger
