import Mixsheet.Command.Outcome

/-! # Files

A command line run on a tree of text files. A path is a list of names with slashes between; a file with
a name in a folder makes the folder. A file is written where its folder is. Around the tree stand other
folders, of which nothing is known: no file is found there, and one that is written there is no part of
the tree. -/

namespace Mixsheet.Command

/-- Text files under their paths. -/
structure Files where
  files : List (List String × String)

/-- A folder of the tree, or one around it. -/
inductive Folder where
  | inside (path : List String)
  | outside

/-- The folder above. -/
def Folder.above : Folder → Folder
  | .inside [] => .outside
  | .inside path => .inside path.dropLast
  | .outside => .outside

/-- What a path leads to. -/
inductive Place where
  | file (path : List String) (text : String)
  | folder (folder : Folder)
  | vacant (path : List String)
  | beyond
  /-- The null device: it is empty, whatever is written to it. -/
  | null

/-- Why a place is no folder to go on from. -/
def Place.fault : Place → FileFault
  | .file .. => .notFolder
  | _ => .notFound

namespace Files

/-! ### Paths -/

/-- The text of the file under a path. -/
def text? (t : Files) (path : List String) : Option String := t.files.lookup path

/-- A file has a path through this one. -/
def isFolder (t : Files) (path : List String) : Bool :=
  t.files.any fun (p, _) => p.length > path.length && path.isPrefixOf p

/-- What stands under a name in a folder. A name has at most 255 bytes. -/
def enter (t : Files) (folder : Folder) (name : String) : Except FileFault Place :=
  if name.utf8ByteSize > 255 then .error .tooLong
  else
    match folder with
    | .outside => .ok .beyond
    | .inside path =>
      match t.text? (path ++ [name]) with
      | some text => .ok (.file (path ++ [name]) text)
      | none =>
        if t.isFolder (path ++ [name]) then .ok (.folder (.inside (path ++ [name])))
        else .ok (.vacant (path ++ [name]))

/-- What names lead to from a folder. With nothing but slashes behind it, the last name stands for a
folder, whatever is there. -/
def follow (t : Files) (folder : Folder) : List String → Except FileFault Place
  | [] => .ok (.folder folder)
  | name :: rest =>
    if name = "" ∨ name = "." then t.follow folder rest
    else if name = ".." then t.follow folder.above rest
    else
      match t.enter folder name with
      | .ok (.folder inner) => t.follow inner rest
      | found =>
        if rest.isEmpty then found
        else if rest.all (· == "") then .error .folder
        else found.bind fun place => .error place.fault

/-- What a path leads to; a slash at its start leads out of the tree. A path has at most 4095 bytes. -/
def locate (t : Files) (path : String) : Except FileFault Place :=
  if path = "" then .error .notFound
  else if path.utf8ByteSize > 4095 then .error .tooLong
  else if path = "/dev/null" then .ok .null
  else t.follow (if path.toList.head? = some '/' then .outside else .inside []) (path.splitOn "/")

/-! ### Reading and writing -/

/-- What comes of asking for the text of the file under a path. -/
def read (t : Files) (path : String) : FileText :=
  match t.locate path with
  | .ok (.file _ text) => .text text
  | .ok (.folder _) => .unreadable FileFault.folder.message
  | .ok .null => .text ""
  | _ => .absent

/-- The files with one file written. -/
def put (t : Files) (path : List String) (text : String) : Files :=
  ⟨(path, text) :: t.files.filter fun file => file.1 != path⟩

/-- The files with the file under a path written. -/
def write (t : Files) (path text : String) : Except FileFault Files :=
  match t.locate path with
  | .ok (.file path _) | .ok (.vacant path) => .ok (t.put path text)
  | .ok (.folder _) => .error .folder
  | .ok .beyond | .ok .null => .ok t
  | .error fault => .error fault

/-- The names of a path that lead into a folder. -/
def names (path : String) : List String := (path.splitOn "/").filter fun name => name != "" && name != "."

/-- The files of a list of paths and texts, written one after the other. -/
def ofList (files : List (String × String)) : Files :=
  files.foldl (fun t (path, text) => t.put (names path) text) ⟨[]⟩

/-- The files that are new or have a new text, in the order of their paths. -/
def changes (before after : Files) : List (String × String) :=
  let changed := after.files.filter fun (path, text) => before.text? path != some text
  (changed.map fun (path, text) => ("/".intercalate path, text)).mergeSort fun a b => a.1 ≤ b.1

end Files

/-- What an invocation comes to, and the files it leaves. -/
def Invocation.perform (invocation : Invocation) (files : Files) : Outcome × Files :=
  match invocation.plan (files.read invocation.task.path) with
  | .finish outcome => (outcome, files)
  | .write path css report =>
    match files.write path css with
    | .ok files => (written path report (.ok ()), files)
    | .error fault => (written path report (.error fault.message), files)

/-- What the words of a command line come to, and the files they leave. -/
def perform (words : List String) (files : Files) : Outcome × Files :=
  match Invocation.ofWords words with
  | .ok invocation => invocation.perform files
  | .error halt => (halt.outcome, files)

end Mixsheet.Command
