import GraphCalc.Text.Cutting

/-! # Files by path

A path is a text of names between slashes; empty names and single dots mean nothing, and two dots
lead up. A place is the list of names that a path amounts to from the working directory; places
outside it start with a slash or with two dots. Main notions:

* `Path.normal`: a path as it is shown, without names that mean nothing;
* `Files`: contents by place;
* `Files.read?`: the contents at a path, if it leads to a file;
* `Files.write?`: the files after writing at a path, missing directories being made; refused where a
  directory stands at the path or a file above it.
-/

namespace GraphCalc
open GraphCalc.Text
set_option autoImplicit false

/-! ## Paths -/

namespace Path

def pieces : List Char → List (List Char)
  | [] => [[]]
  | c :: rest => if c = '/' then [] :: pieces rest else consFirst c (pieces rest)

def names (path : String) : List String :=
  ((pieces path.toList).filter fun name => !name.isEmpty && name != ['.']).map String.ofList

/-- The slashes at the start of a path: two stay two, any other number counts as one. -/
def root (path : String) : String :=
  match (path.toList.takeWhile (· == '/')).length with
  | 0 => ""
  | 2 => "//"
  | _ => "/"

def normal (path : String) : String :=
  let shown := root path ++ "/".intercalate (names path)
  if shown = "" then "." else shown

/-- The path of the directory that a path leads into. -/
def above (path : String) : String :=
  let shown := root path ++ "/".intercalate (names path).dropLast
  if shown = "" then "." else shown

end Path

/-! ## Files -/

/-- Files by their places. -/
structure Files where
  entries : List (List String × ByteArray)

namespace Files

def find? (files : Files) (place : List String) : Option ByteArray := files.entries.lookup place

def isDirectory (files : Files) (place : List String) : Bool :=
  place.all (· == "..") || place == ["/"] || files.entries.any fun (other, _) =>
    place.isPrefixOf other && place.length < other.length

def isFile (files : Files) (place : List String) : Bool := (files.find? place).isSome

/-- Follows names from a place. `enter` says whether one may go up from a place. Going up leads out
of the working directory, but not out of the root. -/
def follow? (enter : List String → Bool) : List String → List String → Option (List String)
  | place, [] => some place
  | place, name :: rest =>
    if name = ".." then
      if place = ["/"] then follow? enter place rest
      else if place.all (· == "..") then follow? enter (place ++ [".."]) rest
      else if enter place then follow? enter place.dropLast rest
      else none
    else follow? enter (place ++ [name]) rest

def place? (enter : List String → Bool) (path : String) : Option (List String) :=
  follow? enter (if Path.root path = "" then [] else ["/"]) (Path.names path)

def isInside (place : List String) : Bool := place.head? != some "/" && place.head? != some ".."

def read? (files : Files) (path : String) : Option ByteArray :=
  (place? files.isDirectory path).bind files.find?

def put (files : Files) (place : List String) (contents : ByteArray) : Files :=
  if files.isFile place then
    ⟨files.entries.map fun entry => if entry.1 = place then (place, contents) else entry⟩
  else ⟨files.entries ++ [(place, contents)]⟩

/-- The places above a place. -/
def above (place : List String) : List (List String) := (List.range place.length).map place.take

def write? (files : Files) (path : String) (contents : ByteArray) : Option Files :=
  match place? (fun place => !files.isFile place) path with
  | none => none
  | some place =>
    if files.isDirectory place || (above place).any files.isFile then none
    else some (files.put place contents)

end Files
end GraphCalc
