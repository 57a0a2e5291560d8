/-!
# Paths and directories

The extension of a file name is what stands behind its last point, unless that point is its first
character. A directory is a list of files by their paths; a path may run through directories that
some file lies in. The null device is always there: it reads as empty and keeps nothing.
-/

namespace WindowedClosures.CommandLine

/-- Text in front of and behind the last occurrence of a character. -/
def splitLast (c : Char) (text : List Char) : Option (List Char × List Char) :=
  let behind := (text.reverse.takeWhile (· != c)).reverse
  if behind.length < text.length then
    some (text.take (text.length - behind.length - 1), behind)
  else none

/-- The directory part of a path, with its slash, and the file name. -/
def splitPath (path : List Char) : List Char × List Char :=
  match splitLast '/' path with
  | some (directory, name) => (directory ++ ['/'], name)
  | none => ([], path)

/-- Whether the last part of a path names a file, and not the directory itself or the one above. -/
def namesFile (name : List Char) : Bool := name ≠ [] && name ≠ ['.'] && name ≠ ['.', '.']

/-- A file name without its extension, and the extension. -/
def splitExtension (name : List Char) : List Char × Option (List Char) :=
  match splitLast '.' name with
  | some (stem, extension) =>
    if namesFile name && !stem.isEmpty then (stem, some extension) else (name, none)
  | none => (name, none)

def extension? (path : String) : Option String :=
  (splitExtension (splitPath path.toList).2).2.map String.ofList

/-- A file name with this extension in place of its own. What names no file takes none. -/
def setExtension (name extension : List Char) : List Char :=
  if namesFile name then (splitExtension name).1 ++ '.' :: extension else name

/-- A file name up to the point in front of its extension, that point included. -/
def cutExtension (name : List Char) : List Char :=
  match splitExtension name with
  | (stem, some _) => stem ++ ['.']
  | (_, none) => name

/-- The path with its extension replaced, or added where there is none. The old extension is cut
off behind its point first; where this leaves the directory above, as of a name with a point for
its stem, no extension is added. -/
def withExtension (path extension : String) : String :=
  let (directory, name) := splitPath path.toList
  String.ofList (directory ++ setExtension (cutExtension name) extension.toList)

example : withExtension "d/a.b.c" "x" = "d/a.b.x" := by decide +kernel

example : withExtension ".c" "x" = ".c.x" := by decide +kernel

example : withExtension "..c" "x" = ".." := by decide +kernel

/-- The parts of a path between slashes. Where it ends in a slash, its last part is empty. -/
def parts (path : List Char) : List (List Char) :=
  path.foldr (fun c runs =>
    if c = '/' then [] :: runs
    else
      match runs with
      | run :: runs => (c :: run) :: runs
      | [] => [[c]]) [[]]

/-- The most bytes that a name in a path takes. -/
def longestName : Nat := 255

/-- The most bytes that a path takes. -/
def longestPath : Nat := 4095

/-- A relative path without parts that stay in place. Absolute paths, paths upwards, paths that end
in a directory and those that are too long are not followed. -/
def normalPath? (path : String) : Option String :=
  let ps := parts path.toList
  let kept := ps.filter fun p => p ≠ [] ∧ p ≠ ['.']
  if path.toList.head? = some '/' ∨ ps.contains ['.', '.'] then none
  else if longestPath < path.utf8ByteSize then none
  else if kept.any fun p => longestName < (String.ofList p).utf8ByteSize then none
  else if ps.getLast? = some [] ∨ ps.getLast? = some ['.'] then none
  else some ("/".intercalate (kept.map String.ofList))

/-- Where what is written is dropped. -/
def nullDevice : String := "/dev/null"

/-- Files by their normal paths. -/
structure Directory where
  files : List (String × List UInt8)

namespace Directory

/-- Whether some file lies below a path that ends in a slash; the empty path is the directory. -/
def hasDirectory (d : Directory) (path : List Char) : Bool :=
  path.isEmpty || d.files.any fun (name, _) => path.isPrefixOf name.toList

/-- The contents of a file. -/
def read? (d : Directory) (path : String) : Option (List UInt8) :=
  if path = nullDevice then some []
  else do d.files.lookup (← normalPath? path)

/-- The directory after a file was written. -/
def write? (d : Directory) (path : String) (contents : List UInt8) : Option Directory :=
  if path = nullDevice then some d
  else do
    let name ← normalPath? path
    let (parent, _) := splitPath name.toList
    if d.hasDirectory parent && !d.hasDirectory (name.toList ++ ['/']) then
      some ⟨(name, contents) :: d.files.filter (·.1 != name)⟩
    else none

end Directory

end WindowedClosures.CommandLine
