import ContextFree.Document

/-!
# Directories held in memory

A finite tree of files and folders, around the folder a program works in, with paths
resolved the way a file system does it: one piece of the path at a time, so that a fault
says where the path first went wrong. A piece that follows a file fails because the file
is no folder, even if the piece is empty or a dot.

Little is known of what lies outside. The working folder lies in a folder, that one in
another, and so on for as long as one cares to ask, since the root counts as lying in
itself. These folders are there and nothing else is, unless something was put there.
-/

namespace ContextFree

/-! ## Places -/

/-- The folder from which the names of a place are followed. -/
inductive Base where
  | root
  /-- The folder so many levels above the one the program works in. -/
  | above (levels : Nat)
deriving DecidableEq, Repr

/-- The folder a base lies in. -/
def Base.parent : Base → Base
  | root => root
  | above levels => above (levels + 1)

/-- What a path leads to: the names to follow, and where from. -/
structure Place where
  base : Base
  names : List String
deriving DecidableEq, Repr

namespace Place

/-- Where a path starts. -/
def start (path : Path) : Place :=
  ⟨if path.isAbsolute then .root else .above 0, []⟩

/-- One piece further. -/
def next (place : Place) (piece : String) : Place :=
  if piece = "" || piece = "." then place
  else if piece = ".." then
    if place.names.isEmpty then { place with base := place.base.parent }
    else { place with names := place.names.dropLast }
  else { place with names := place.names ++ [piece] }

/-- The places behind some pieces of a path, one for each. -/
def along (place : Place) : List String → List Place
  | [] => []
  | piece :: rest => place.next piece :: (place.next piece).along rest

end Place

/-! ## Directories -/

/-- Files with their contents, and the folders that are known besides the bases. -/
structure Directory where
  files : List (Place × ByteArray)
  folders : List Place

namespace Directory

/-- Names longer than this, in bytes, cannot be looked up. -/
def nameLimit : Nat := 255

/-- Paths longer than this, in bytes, cannot be resolved. -/
def pathLimit : Nat := 4095

/--
Puts a file where the path leads, hiding one that is there already, and the folders the
path goes through. A path that ends in a slash puts only folders: its last piece is
empty, so the place it leads to is among those it goes through.
-/
def put (d : Directory) (path : Path) (content : ByteArray) : Directory :=
  let places := (Place.start path).along path.segments
  let file? := if path.text.endsWith "/" then none else places.getLast?
  {
    files := (file?.map (·, content)).toList ++ d.files
    folders := places.dropLast ++ d.folders
  }

/-- A listing of paths; one that ends in a slash is a folder and its content is ignored. -/
def ofEntries (entries : List (String × ByteArray)) : Directory :=
  entries.foldl (fun d (name, content) => d.put ⟨name⟩ content) ⟨[], []⟩

/-- Is there a folder at this place? -/
def hasFolder (d : Directory) (place : Place) : Bool :=
  place.names.isEmpty || d.folders.contains place

/-- Opens the file that pieces of a path lead to from a place where there is a folder. -/
def openFrom (d : Directory) (place : Place) : List String → Except ReadFault ByteArray
  | [] => .error (.system 21)
  | piece :: rest =>
    if nameLimit < piece.utf8ByteSize then
      .error (.system 36)
    else
      let next := place.next piece
      match d.files.lookup next with
      | some content => if rest.isEmpty then .ok content else .error (.system 20)
      | none => if d.hasFolder next then d.openFrom next rest else .error (.system 2)

/-- The content of the file at a path. -/
def read (d : Directory) (path : Path) : Except ReadFault ByteArray :=
  if path.text.toList.contains '\x00' then .error .nulInName
  else if path.text = "" then .error (.system 2)
  else if pathLimit < path.text.utf8ByteSize then .error (.system 36)
  else d.openFrom (.start path) path.segments

end Directory

end ContextFree
