import LockAudit.Text.Blank
import LockAudit.Text.Quoted

/-! # Files by name

The files that a command line names, in a working directory. A name is a path without empty parts and
without dots that stand for the directory itself; two dots stay.
-/

namespace LockAudit

/-- A path: what marks it as absolute, if anything, and its parts. -/
structure PathName where
  anchor : String
  parts : List String
  deriving Repr, DecidableEq, Inhabited

namespace PathName

/-- Two leading slashes, but not three, are an anchor of their own. -/
def anchorOf (cs : List Char) : String :=
  match cs with
  | '/' :: '/' :: '/' :: _ => "/"
  | '/' :: '/' :: _ => "//"
  | '/' :: _ => "/"
  | _ => ""

def parse (text : String) : PathName where
  anchor := anchorOf text.toList
  parts := (Text.split '/' text).filter fun p => !p.isEmpty && p != "."

def render (p : PathName) : String :=
  if p.anchor.isEmpty && p.parts.isEmpty then "." else p.anchor ++ "/".intercalate p.parts

end PathName

inductive Entry
  | file (text : String)
  | directory
  deriving Repr, DecidableEq, Inhabited

inductive Contents
  | missing
  | unreadable (reason : String)
  | text (text : String)
  deriving Repr, DecidableEq, Inhabited

inductive FileError
  | missing (name : String)
  | isDirectory (name : String)
  | notADirectory (name : String)
  /-- The name or a part of it is too long. -/
  | tooLong (name : String)
  /-- The name holds the character that ends names. -/
  | nullCharacter
  /-- The name holds a lone surrogate for which there is no byte. -/
  | unencodable
  deriving Repr, DecidableEq

namespace FileError

def message : FileError → String
  | missing name => "[Errno 2] No such file or directory: " ++ Text.quoted name
  | isDirectory name => "[Errno 21] Is a directory: " ++ Text.quoted name
  | notADirectory name => "[Errno 20] Not a directory: " ++ Text.quoted name
  | tooLong name => "[Errno 36] File name too long: " ++ Text.quoted name
  | nullCharacter => "embedded null byte"
  | unencodable => "surrogates not allowed"

end FileError

/-- The number of bytes of a name; some lone surrogates stand for one byte each, and others for none. -/
def nameBytes? (name : String) : Option Nat :=
  (Text.symbols name.toList).foldlM (fun size symbol => match symbol with
    | .char c => some (size + c.utf8Size)
    | .lone unit => if 0xdc80 ≤ unit && unit ≤ 0xdcff then some (size + 1) else none) 0

def isLonger (name : String) (limit : Nat) : Bool :=
  (nameBytes? name).any fun size => limit < size

def partLimit : Nat := 255

def nameLimit : Nat := 4095

/-- The entries of a directory by the parts of their paths. Directories that hold an entry need
no entry of their own. -/
structure FileTree where
  entries : List (List String × Entry)
  deriving Repr, Inhabited

inductive Place
  /-- Below the working directory. -/
  | inside (parts : List String)
  /-- Below the root of all files, from which absolute names start. -/
  | system (parts : List String)
  /-- A directory above the working directory. -/
  | outside
  /-- An entry of such a directory, of which nothing is known: it is taken for missing. -/
  | unknown
  deriving Repr, DecidableEq, Inhabited

/-- What every system has: a device that holds nothing and keeps nothing, and some directories, of whose
other entries nothing is known. -/
def systemEntries : List (List String × Entry) :=
  [(["dev", "null"], .file "")] ++
    (["dev", "etc", "home", "opt", "tmp", "usr", "var"].map fun d => ([d], .directory))

namespace Place

def parent : Place → Place
  | inside [] => outside
  | inside parts => inside parts.dropLast
  | system parts => system parts.dropLast
  | outside => outside
  | unknown => outside

def child : Place → String → Place
  | inside parts, name => inside (parts ++ [name])
  | system parts, name => system (parts ++ [name])
  | outside, _ => unknown
  | unknown, _ => unknown

end Place

namespace FileTree

def at? (t : FileTree) (place : List String) : Option Entry :=
  match t.entries.find? fun e => e.1 == place with
  | some e => some e.2
  | none =>
    if place.isEmpty || t.entries.any fun e => place.isPrefixOf e.1 then some .directory else none

def entry? (t : FileTree) : Place → Option Entry
  | .inside parts => t.at? parts
  | .system parts => { entries := systemEntries : FileTree }.at? parts
  | .outside => some .directory
  | .unknown => none

def enter (t : FileTree) (name : String) (place : Place) (part : String) : Except FileError Place :=
  match t.entry? place with
  | none => .error (.missing name)
  | some (.file _) => .error (.notADirectory name)
  | some .directory =>
    if part == "." then .ok place
    else if part == ".." then .ok place.parent
    else if isLonger part partLimit then .error (.tooLong name)
    else .ok (place.child part)

/-- Follows the parts of a name, from the working directory or, for an absolute name, from the root. -/
def follow (t : FileTree) (name : String) (parts : List String) : Except FileError Place :=
  if isLonger name nameLimit then .error (.tooLong name)
  else parts.foldlM (t.enter name) (if name.startsWith "/" then .system [] else .inside [])

/-- The entry that a path names, if there is one. A name that no file can have names none, but one that is
too long is a fault. -/
def find? (t : FileTree) (p : PathName) : Except FileError (Option Entry) :=
  if p.render.toList.contains '\x00' || (nameBytes? p.render).isNone then .ok none
  else
    match t.follow p.render p.parts with
    | .ok place => .ok (t.entry? place)
    | .error (.tooLong name) => .error (.tooLong name)
    | .error _ => .ok none

def read (t : FileTree) (p : PathName) : Except FileError Contents := do
  match ← t.find? p with
  | none => return .missing
  | some .directory => return .unreadable (FileError.isDirectory p.render).message
  | some (.file text) => return .text text

def isDots (part : String) : Bool :=
  part == "." || part == ".."

/-- Where a file of the given name is written. A name that ends in a slash or in dots is one of a
directory, whatever its last part is. -/
def placeFor (t : FileTree) (name : String) : Except FileError Place := do
  let parts := (Text.split '/' name).filter fun p => !p.isEmpty
  let parts := if name.endsWith "/" then parts.dropLast ++ ["."] else parts
  if (nameBytes? name).isNone then throw .unencodable
  if name.toList.contains '\x00' then throw .nullCharacter
  if name.isEmpty then throw (.missing name)
  let place ← t.follow name parts
  if parts.getLast?.any isDots || t.entry? place == some .directory then
    throw (.isDirectory name)
  return place

end FileTree

end LockAudit
