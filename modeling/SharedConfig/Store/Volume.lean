import SharedConfig.Store.Error

/-!
# SharedConfig.Store.Volume

Files and directories as a value.  A path leads from the working directory through directories; a
file keeps its identity while it is written, and is another one when it is replaced; whoever has
locked a file has locked that identity.

Main statements:

* `Volume.at_put_self` — what is put at a place is there.
-/

namespace SharedConfig

/-- What a file holds. -/
inductive Contents where
  | text (s : String)
  /-- Bytes that are no text. -/
  | binary
  deriving DecidableEq, Repr

/-- What is at a place. -/
inductive Entry where
  | file (id : Nat) (contents : Contents)
  | directory
  deriving DecidableEq, Repr

/-- The names of the directories from the working directory, and a name in the last one. -/
abbrev Place := List String

/-- Whether the character zero is in a text. -/
def holdsZero (s : String) : Bool := s.toList.contains '\x00'

/-- A path as it is written. -/
structure PathName where
  /-- The names on the way; names that lead nowhere are left out. -/
  names : List String
  /-- Whether the path ends in a dot, for the directory that the names lead to. -/
  endsInDot : Bool
  endsInSlash : Bool
  isEmpty : Bool
  /-- Whether the character zero is in it, which no name holds. -/
  hasZero : Bool
  deriving DecidableEq, Repr

namespace PathName

/-- The pieces of a text between its slashes. -/
def pieces : List Char → List (List Char)
  | [] => [[]]
  | c :: rest =>
    match pieces rest with
    | [] => [[c]]
    | p :: ps => if c = '/' then [] :: p :: ps else (c :: p) :: ps

/-- Whether a piece leads nowhere. -/
def isIdle (piece : List Char) : Bool := decide (piece = [] ∨ piece = ['.'])

def ofText (s : String) : PathName :=
  let ps := pieces s.toList
  { names := (ps.filter fun p => !isIdle p).map String.ofList
    endsInDot := decide ((ps.filter fun p => decide (p ≠ [])).getLast? = some ['.'])
    endsInSlash := decide (s.toList.getLast? = some '/')
    isEmpty := decide (s = "")
    hasZero := holdsZero s }

/-- The names to follow, of which all but the last are directories. -/
def way (path : PathName) : List String := if path.endsInDot then path.names ++ ["."] else path.names

/-- Whether the path ends in a name, and not in a dot or two. -/
def isNamed (path : PathName) : Bool :=
  match path.way.getLast? with
  | some name => decide (name ≠ "." ∧ name ≠ "..")
  | none => false

/-- The path of the directory that the last name of a path is in, as it is written there; empty for
a name alone. -/
def parentText (s : String) : String :=
  match pieces s.toList with
  | [] => ""
  | first :: others =>
    match others.reverse.dropWhile isIdle with
    | [] => ""
    | _ :: above =>
      let kept := first :: (above.dropWhile isIdle).reverse
      if kept = [[]] then "/" else "/".intercalate (kept.map String.ofList)

end PathName

/-- Files and directories, with the files that are locked. -/
structure Volume where
  entries : List (Place × Entry)
  nextId : Nat
  locked : List Nat
  deriving Repr

namespace Volume

def empty : Volume := ⟨[], 0, []⟩

def at? (v : Volume) (p : Place) : Option Entry :=
  if p = [] then some .directory else v.entries.lookup p

def put (v : Volume) (p : Place) (e : Entry) : Volume :=
  { v with entries := (p, e) :: v.entries.filter fun x => decide (x.1 ≠ p) }

@[simp] theorem at_put_self (v : Volume) {p : Place} (h : p ≠ []) (e : Entry) :
    (v.put p e).at? p = some e := by
  simp [at?, put, h]

/-- The place one name further. -/
def step (here : Place) (name : String) : Place :=
  if name = "." then here else if name = ".." then here.dropLast else here ++ [name]

/-- The place that names lead to.  All but the last are directories, and none has more than 255
bytes. -/
def walk (v : Volume) : List String → Place → Except FileError Place
  | [], here => .ok here
  | name :: rest, here =>
    if 255 < name.utf8ByteSize then .error .nameTooLong
    else if rest.isEmpty then .ok (step here name)
    else
      match v.at? (step here name) with
      | some .directory => walk v rest (step here name)
      | some (.file ..) => .error .notDirectory
      | none => .error .missing

/-- The place that a path leads to, whatever may be there. -/
def follow (v : Volume) (path : PathName) : Except FileError Place :=
  if path.hasZero then .error .zeroInPath
  else if path.isEmpty then .error .missing
  else v.walk path.way []

/-- The place that a path leads to.  Behind a file no slash stands. -/
def resolve (v : Volume) (path : PathName) : Except FileError Place :=
  match v.follow path with
  | .error e => .error e
  | .ok p =>
    match v.at? p with
    | some (.file ..) => if path.endsInSlash then .error .notDirectory else .ok p
    | _ => .ok p

def entry (v : Volume) (path : PathName) : Except FileError Entry :=
  match v.resolve path with
  | .error e => .error e
  | .ok p =>
    match v.at? p with
    | none => .error .missing
    | some e => .ok e

def textAt (v : Volume) (path : PathName) : Except FileError String :=
  match v.entry path with
  | .error e => .error e
  | .ok .directory => .error .isDirectory
  | .ok (.file _ (.text s)) => .ok s
  | .ok (.file _ .binary) => .error .notText

def isDirectory (v : Volume) (names : List String) : Bool :=
  match v.walk names [] with
  | .ok p => decide (v.at? p = some .directory)
  | .error _ => false

/-- Make a directory at the end of some names, where there is nothing yet. -/
def makeDirectory (v : Volume) (names : List String) : Except FileError Volume :=
  if names.any holdsZero then .error .zeroInPath
  else
    match v.walk names [] with
    | .error e => .error e
    | .ok p =>
      match v.at? p with
      | some _ => .error .present
      | none => .ok (v.put p .directory)

def ensureDirectory (v : Volume) (names : List String) : Except FileError Unit × Volume :=
  match v.makeDirectory names with
  | .ok v => (.ok (), v)
  | .error e => (if v.isDirectory names then .ok () else .error e, v)

/-- Make a directory and those above it where they are missing; the names are given from their
end.  Those that could be made stay. -/
def makeDirectories (v : Volume) : List String → Except FileError Unit × Volume
  | [] => (.ok (), v)
  | name :: above =>
    let names := (name :: above).reverse
    match v.ensureDirectory names with
    | (.error .missing, v) =>
      match v.makeDirectories above with
      | (.error e, v) => (.error e, v)
      | (.ok (), v) => v.ensureDirectory names
    | done => done

def makeParent (v : Volume) (path : PathName) : Except FileError Unit × Volume :=
  v.makeDirectories path.names.dropLast.reverse

/-- The file at a path, which is made where there is none. -/
def fileAt (v : Volume) (path : PathName) : Except FileError (Nat × Volume) :=
  match v.follow path with
  | .error e => .error e
  | .ok p =>
    if path.endsInSlash then .error .isDirectory
    else
      match v.at? p with
      | some .directory => .error .isDirectory
      | some (.file id _) => .ok (id, v)
      | none => .ok (v.nextId, { v.put p (.file v.nextId (.text "")) with nextId := v.nextId + 1 })

/-- Put a new file with a text in the place of a file. -/
def replace (v : Volume) (path : PathName) (s : String) : Except FileError Volume :=
  match v.follow path with
  | .error e => .error e
  | .ok p =>
    if !path.isNamed then .error .busy
    else if path.endsInSlash then .error .notDirectory
    else
      match v.at? p with
      | some .directory => .error .isDirectory
      | _ => .ok { v.put p (.file v.nextId (.text s)) with nextId := v.nextId + 1 }

/-- Write a file, which keeps its identity. -/
def overwrite (v : Volume) (path : PathName) (contents : Contents) : Except FileError Volume :=
  match v.fileAt path with
  | .error e => .error e
  | .ok (id, v) =>
    match v.resolve path with
    | .error e => .error e
    | .ok p => .ok (v.put p (.file id contents))

def erase (v : Volume) (path : PathName) : Except FileError Volume :=
  match v.resolve path with
  | .error e => .error e
  | .ok p =>
    match v.at? p with
    | none => .error .missing
    | some .directory => .error .isDirectory
    | some (.file ..) => .ok { v with entries := v.entries.filter fun x => decide (x.1 ≠ p) }

def namesIn (v : Volume) (names : List String) : List String :=
  match v.walk names [] with
  | .error _ => []
  | .ok p => v.entries.filterMap fun x => if x.1.dropLast = p then x.1.getLast? else none

def fileId? (v : Volume) (path : PathName) : Option Nat :=
  match v.entry path with
  | .ok (.file id _) => some id
  | _ => none

/-- Lock the file at a path, which is made where there is none. -/
def lock (v : Volume) (path : String) : Except StoreError Nat × Volume :=
  let name := PathName.ofText path
  match v.makeParent name with
  | (.error e, v) => (.error (.lock path e), v)
  | (.ok (), v) =>
    match v.fileAt name with
    | .error e => (.error (.lock path e), v)
    | .ok (id, v) =>
      if v.locked.contains id then (.error (.lockTimeout path), v)
      else (.ok id, { v with locked := id :: v.locked })

def unlock (v : Volume) (id : Nat) : Volume := { v with locked := v.locked.erase id }

end Volume

end SharedConfig
