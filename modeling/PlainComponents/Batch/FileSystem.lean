import PlainComponents.Batch.Path
import PlainComponents.Text.Quoted

/-!
# File systems

Files with a mode and contents, directories, and symbolic links, by location.  A location is the
list of names from the root down, so two paths lead to the same entry exactly if they resolve to
the same location.  The working directory is the root.

All entries belong to one owner, who does the work.  A file can be read unless its mode forbids it, and a
file can be replaced unless the directory that holds it is locked.  Every directory can be searched and
listed, and a disk never runs full: other permissions and other causes of failure are left out.

* `FileSystem.resolve` follows a path through links, as many as `maxLinks`;
* `FileSystem.read` and `FileSystem.replace` work on the file that a path resolves to; replacing
  stages the new contents in a temporary file beside the old one and then renames it, so the file is
  never half written and a failure leaves no trace;
* `Staging` draws the names of temporary files;
* `FileSystem.listing?` shows the files and links to their owner, if no mode forbids it.
-/

namespace PlainComponents

/-- Where an entry is: the names from the root down. -/
abbrev Location := List Name

inductive Entry where
  | file (mode : Nat) (contents : Bytes)
  | directory
  | link (target : Path)
  deriving DecidableEq

/-- Whether a mode lets the owner read. -/
def ownerReads (mode : Nat) : Bool :=
  mode.testBit 8

/-- Whether the mode of an entry lets its owner read it.  Only files have a mode. -/
def Entry.isOpen : Entry → Bool
  | file mode _ => ownerReads mode
  | directory => true
  | link _ => true

/-- Why an operation on files fails. -/
inductive FileError where
  | notFound
  /-- The mode of the file forbids it. -/
  | denied
  | notADirectory
  | isADirectory
  | linkLoop
  /-- The contents are not UTF-8. -/
  | notText
  /-- No temporary file can be made, for the reason given. -/
  | unstaged (complaint : String)
  deriving DecidableEq

def FileError.message : FileError → String
  | notFound => "No such file or directory (os error 2)"
  | denied => "Permission denied (os error 13)"
  | notADirectory => "Not a directory (os error 20)"
  | isADirectory => "Is a directory (os error 21)"
  | linkLoop => "Too many levels of symbolic links (os error 40)"
  | notText => "stream did not contain valid UTF-8"
  | unstaged complaint => complaint

/-- What the names of temporary files begin with. -/
def temporaryStem : Name :=
  Bytes.ofString ".defc."

/-- How temporary files are made.  Names are drawn by chance until one is not taken. -/
structure Staging where
  /-- What follows the stem in the name, given the names in the directory and the file that is to be
  replaced. -/
  draw : List Name → Location → Name
  fresh : ∀ taken loc, temporaryStem ++ draw taken loc ∉ taken
  /-- What is said of a temporary file that cannot be made. -/
  complaint : Location → String

namespace Staging

/-- The name of the temporary file for the file at `loc`. -/
def name (staging : Staging) (taken : List Name) (loc : Location) : Name :=
  temporaryStem ++ staging.draw taken loc

/-- Draws names that are longer than those that are taken. -/
def usual : Staging where
  draw taken _ := List.replicate ((taken.map List.length).max?.getD 0) 0x30
  fresh taken loc h := by
    have hle := List.le_max?_getD_of_mem (k := 0) (List.mem_map_of_mem (f := List.length) h)
    have hstem : temporaryStem.length = 6 := by decide
    rw [List.length_append, List.length_replicate, hstem] at hle
    omega
  complaint loc :=
    let path := Text.decodeLossy (loc.flatMap fun n => Path.slash :: n)
    FileError.denied.message ++ " at path " ++ String.ofList (Text.quote path)

end Staging

/-- The entries of a file system; the root directory is not listed. -/
structure FileSystem where
  entries : List (Location × Entry)
  /-- The directories in which nothing can be created. -/
  locked : List Location
  deriving DecidableEq

namespace FileSystem

def empty : FileSystem :=
  ⟨[], []⟩

/-! ### Entries -/

/-- The entry at a location. -/
def get? (fs : FileSystem) : Location → Option Entry
  | [] => some .directory
  | loc => (fs.entries.find? fun e => e.1 = loc).map Prod.snd

/-- Puts an entry in a list, in place of the one at the same location. -/
def assign (loc : Location) (entry : Entry) : List (Location × Entry) → List (Location × Entry)
  | [] => [(loc, entry)]
  | e :: es => if e.1 = loc then (loc, entry) :: es else e :: assign loc entry es

/-- The file system with `entry` at `loc`. -/
def set (fs : FileSystem) (loc : Location) (entry : Entry) : FileSystem :=
  { fs with entries := assign loc entry fs.entries }

/-- The file system without the entry at `loc`. -/
def erase (fs : FileSystem) (loc : Location) : FileSystem :=
  { fs with entries := fs.entries.filter fun e => e.1 ≠ loc }

/-- The file system without the entry at `loc` and those below it. -/
def eraseAll (fs : FileSystem) (loc : Location) : FileSystem :=
  { entries := fs.entries.filter fun e => !loc.isPrefixOf e.1
    locked := fs.locked.filter fun dir => !loc.isPrefixOf dir }

/-- The name of `entry` in the directory `dir`, if it is right below it. -/
def childName? : Location → Location → Option Name
  | [], [n] => some n
  | a :: dir, b :: entry => if a = b then childName? dir entry else none
  | _, _ => none

/-- The names in a directory, in byte order. -/
def names (fs : FileSystem) (dir : Location) : List Name :=
  (fs.entries.filterMap fun e => childName? dir e.1).mergeSort fun m n => m ≤ n

/-- The locations of all directories. -/
def directories (fs : FileSystem) : List Location :=
  [] :: (fs.entries.filter fun e => e.2 = .directory).map Prod.fst

/-- The greatest number of names in a location. -/
def depth (fs : FileSystem) : Nat :=
  (fs.entries.map fun e => e.1.length).max?.getD 0

/-! ### Resolving paths -/

/-- Where a path leads as long as no link is met. -/
inductive Progress where
  | arrived (loc : Location)
  /-- A link in the directory `dir`, with the steps that are left. -/
  | atLink (dir : Location) (target : Path) (rest : List Path.Step)
  | failed (error : FileError)

/-- Takes steps from a location, up to the first link. -/
def advance (fs : FileSystem) : Location → List Path.Step → Progress
  | loc, [] => .arrived loc
  | loc, step :: rest =>
    match fs.get? loc with
    | some .directory =>
      match step with
      | .stay => advance fs loc rest
      | .up => advance fs loc.dropLast rest
      | .into n =>
        match fs.get? (loc ++ [n]) with
        | some (.link target) => .atLink loc target rest
        | some _ => advance fs (loc ++ [n]) rest
        | none => .failed .notFound
    | some _ => .failed .notADirectory
    | none => .failed .notFound

/-- Takes steps from a location, through at most `links` links. -/
def follow (fs : FileSystem) : (links : Nat) → Location → List Path.Step → Except FileError Location
  | 0, loc, steps =>
    match fs.advance loc steps with
    | .arrived loc => .ok loc
    | .atLink .. => .error .linkLoop
    | .failed e => .error e
  | links + 1, loc, steps =>
    match fs.advance loc steps with
    | .arrived loc => .ok loc
    | .atLink dir target rest =>
      if target = [] then .error .notFound
      else
        follow fs links (if Path.isAbsolute target then [] else dir) (Path.steps target ++ rest)
    | .failed e => .error e

/-- The number of links that a path may lead through. -/
def maxLinks : Nat := 40

/-- The location that a path leads to.  It is never that of a link. -/
def resolve (fs : FileSystem) (p : Path) : Except FileError Location :=
  if p = [] then .error .notFound else fs.follow maxLinks [] p.steps

/-! ### Reading and writing -/

/-- What a path leads to. -/
def lookup (fs : FileSystem) (p : Path) : Except FileError Entry := do
  let loc ← fs.resolve p
  match fs.get? loc with
  | some entry => .ok entry
  | none => .error .notFound

/-- The contents of the file that a path leads to, if its mode lets its owner read it. -/
def read (fs : FileSystem) (p : Path) : Except FileError Bytes := do
  let entry ← fs.lookup p
  match entry with
  | .file mode contents => if ownerReads mode then .ok contents else .error .denied
  | .directory => .error .isADirectory
  | .link _ => .error .notFound

/-- The contents of a file as text. -/
def readText (fs : FileSystem) (p : Path) : Except FileError Text := do
  let contents ← fs.read p
  match Text.decode? contents with
  | some t => .ok t
  | none => .error .notText

/-- Moves the entry at `source` to `target`, in place of a file there. -/
def rename (fs : FileSystem) (source target : Location) : Except FileError FileSystem :=
  match fs.get? source, fs.get? target with
  | none, _ => .error .notFound
  | some _, some .directory => .error .isADirectory
  | some entry, _ => .ok ((fs.erase source).set target entry)

/-- The mode of the file at a location. -/
def modeAt (fs : FileSystem) (loc : Location) : Nat :=
  match fs.get? loc with
  | some (.file mode _) => mode
  | _ => 0

/-- Where new contents for the file at `loc` are staged. -/
def temporary (fs : FileSystem) (staging : Staging) (loc : Location) : Location :=
  loc.dropLast ++ [staging.name (fs.names loc.dropLast) loc]

/-- Whether nothing can be created in a directory. -/
def isLocked (fs : FileSystem) (dir : Location) : Bool :=
  fs.locked.contains dir

/-- Why nothing can be staged for the file at `loc`: the directory that holds it is locked. -/
def obstacle? (fs : FileSystem) (staging : Staging) (loc : Location) : Option FileError :=
  if fs.isLocked loc.dropLast then some (.unstaged (staging.complaint (fs.temporary staging loc)))
  else none

/-- Replaces the contents of the file that a path leads to and keeps its mode.  The error, if there
is one, comes with the file system that is left. -/
def replace (fs : FileSystem) (staging : Staging) (p : Path) (contents : Bytes) :
    FileSystem × Option FileError :=
  match fs.resolve p with
  | .error e => (fs, some e)
  | .ok loc =>
    match fs.obstacle? staging loc with
    | some e => (fs, some e)
    | none =>
      let temporary := fs.temporary staging loc
      let staged := fs.set temporary (.file (fs.modeAt loc) contents)
      match staged.rename temporary loc with
      | .ok done => (done, none)
      | .error e => (staged.erase temporary, some e)

/-! ### Listing -/

/-- All files and links, as their owner sees them.  A listing shows the contents of every file, so
there is none if a file is closed to its owner. -/
def listing? (fs : FileSystem) : Option (List (Location × Entry)) :=
  if fs.entries.all fun e => e.2.isOpen then
    some (fs.entries.filter fun e => e.2 ≠ .directory)
  else none

/-! ### Building -/

/-- Takes steps from a location and makes the directories that are missing. -/
def makeDirectories (fs : FileSystem) : Location → List Path.Step → FileSystem × Location
  | loc, [] => (fs, loc)
  | loc, .stay :: steps => makeDirectories fs loc steps
  | loc, .up :: steps => makeDirectories fs loc.dropLast steps
  | loc, .into n :: steps =>
    match fs.get? (loc ++ [n]) with
    | none => makeDirectories (fs.set (loc ++ [n]) .directory) (loc ++ [n]) steps
    | some (.link _) =>
      match fs.follow maxLinks loc [.into n] with
      | .ok target => makeDirectories fs target steps
      | .error _ => makeDirectories fs (loc ++ [n]) steps
    | some _ => makeDirectories fs (loc ++ [n]) steps

/-- The steps to the directory of a path, and the last name. -/
def parentSteps (p : Path) : Option (List Path.Step × Name) :=
  match (p.steps.filter (· ≠ .stay)).reverse with
  | .into n :: before => some (before.reverse, n)
  | _ => none

/-- Puts an entry at a path and makes the directories that are missing. -/
def put (fs : FileSystem) (p : Path) (entry : Entry) : FileSystem :=
  match parentSteps p with
  | none => fs
  | some (steps, n) =>
    let (made, dir) := fs.makeDirectories [] steps
    made.set (dir ++ [n]) entry

/-- Locks the directory that a path leads to. -/
def lock (fs : FileSystem) (p : Path) : FileSystem :=
  match fs.resolve p with
  | .ok dir => { fs with locked := dir :: fs.locked }
  | .error _ => fs

/-- Removes the entry at a path, a link itself and not its target, with all that is below it. -/
def remove (fs : FileSystem) (p : Path) : FileSystem :=
  match parentSteps p with
  | none => fs
  | some (steps, n) =>
    match fs.follow maxLinks [] steps with
    | .ok dir => fs.eraseAll (dir ++ [n])
    | .error _ => fs

end FileSystem

end PlainComponents
