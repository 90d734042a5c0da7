namespace CaseFolding

/-! # File trees

The files and directories below one directory, as far as reading a file,
writing a file and making directories can tell them apart. A path is a text of
names between slashes and leads from the root: every name but the last must be
that of a directory, `.` stays where it is, and `..` goes back, at the root
nowhere.

There are no links, neither symbolic nor hard, and no devices. The root is the working
directory, so what lies above it is left out, and nobody else changes the tree while a
run goes on. Permissions and full disks are not here but in what a system refuses.
-/

/-- Why a path does not lead to what was wanted. -/
inductive FileError where
  | notFound
  | alreadyExists
  | notADirectory
  | isADirectory
  /-- The content of a file is not text. -/
  | notText
  /-- The system refuses what was wanted, for a reason of its own. -/
  | refused (reason : String)
deriving DecidableEq

/-- The wording of an error. -/
def FileError.message : FileError → String
  | .notFound => "No such file or directory (os error 2)"
  | .alreadyExists => "File exists (os error 17)"
  | .notADirectory => "Not a directory (os error 20)"
  | .isADirectory => "Is a directory (os error 21)"
  | .notText => "stream did not contain valid UTF-8"
  | .refused reason => reason

/-- The names that lead straight from the root to a file or directory. -/
abbrev Place := List String

/-- What stands at a place. -/
inductive Item where
  | directory
  | file (content : ByteArray)

/-- Whether an item is a directory. -/
def Item.isDirectory : Item → Bool
  | .directory => true
  | .file _ => false

/-- The files and directories below a root, which is a directory itself. -/
structure FileTree where
  items : List (Place × Item)

namespace FileTree

/-! ## Places -/

/-- What stands at a place. -/
def item? (t : FileTree) (p : Place) : Option Item :=
  if p = [] then some .directory else t.items.lookup p

/-- Puts an item at a place, instead of what is there. -/
def put (t : FileTree) (p : Place) (i : Item) : FileTree :=
  ⟨(p, i) :: t.items.filter (·.1 ≠ p)⟩

/-- Leaving out one place does not change what is found at another. -/
theorem lookup_filter_ne {p q : Place} (h : q ≠ p) (items : List (Place × Item)) :
    (items.filter (·.1 ≠ p)).lookup q = items.lookup q := by
  induction items with
  | nil => rfl
  | cons x items ih =>
    obtain ⟨r, i⟩ := x
    by_cases hr : r = p
    · have hq : q ≠ r := fun e => h (e.trans hr)
      simpa [hr, List.lookup_cons, beq_eq_false_iff_ne.mpr h] using ih
    · by_cases hq : q = r <;> simp_all [List.lookup_cons]

theorem item?_put (t : FileTree) {p : Place} (hp : p ≠ []) (i : Item) (q : Place) :
    (t.put p i).item? q = if q = p then some i else t.item? q := by
  by_cases h : q = p
  · subst h
    simp [put, item?, hp]
  · simp only [put, item?, List.lookup_cons, beq_eq_false_iff_ne.mpr h, lookup_filter_ne h,
      if_neg h]

/-! ## Paths -/

/-- The names in a path. -/
def names (path : String) : List String :=
  ((path.toList.splitOn '/').filter (· ≠ [])).map String.ofList

/-- Whether a path can only be that of a directory. -/
def endsInSlash (path : String) : Bool :=
  path.toList.getLast? = some '/'

/-- Where a name leads from a directory. -/
def follow (p : Place) (name : String) : Place :=
  if name = "." then p else if name = ".." then p.dropLast else p ++ [name]

/-- Where names lead from a place. Nothing needs to stand at the end. -/
def walk (t : FileTree) : (p : Place) → (names : List String) → Except FileError Place
  | p, [] => .ok p
  | p, name :: more =>
    match t.item? p with
    | some .directory => t.walk (follow p name) more
    | some (.file _) => .error .notADirectory
    | none => .error .notFound

/-- Where a path leads. The empty path leads nowhere. -/
def locate (t : FileTree) (path : String) : Except FileError Place :=
  if path = "" then .error .notFound else t.walk [] (names path)

/-! ## Files -/

/-- The content of a file. -/
def readBytes (t : FileTree) (path : String) : Except FileError ByteArray := do
  match t.item? (← t.locate path) with
  | some (.file content) => if endsInSlash path then .error .notADirectory else .ok content
  | some .directory => .error .isADirectory
  | none => .error .notFound

/-- The content of a file that holds text. -/
def readText (t : FileTree) (path : String) : Except FileError String := do
  match String.fromUTF8? (← t.readBytes path) with
  | some text => .ok text
  | none => .error .notText

/-- Makes a file hold a text, whether it is there already or not. -/
def writeText (t : FileTree) (path text : String) : Except FileError FileTree := do
  let p ← t.locate path
  if endsInSlash path then .error .isADirectory
  else
    match t.item? p with
    | some .directory => .error .isADirectory
    | _ => .ok (t.put p (.file text.toUTF8))

/-! ## Directories -/

/-- Whether names lead to a directory. -/
def isDirectory (t : FileTree) (names : List String) : Bool :=
  match t.walk [] names with
  | .ok p => (t.item? p).any Item.isDirectory
  | .error _ => false

/-- Makes one directory where there is nothing. -/
def makeDirectory (t : FileTree) (names : List String) : Except FileError FileTree := do
  let p ← t.walk [] names
  match t.item? p with
  | some _ => .error .alreadyExists
  | none => .ok (t.put p .directory)

/-- The directories around a path from the inside to the outside, the path itself not included.
They are found by names alone, of which `.` does not count. -/
def around (path : String) : List (List String) :=
  let outer := ((names path).filter (· ≠ ".")).dropLast
  (List.range outer.length).map fun k => outer.take (outer.length - k)

/-- The path of a file in a directory. -/
def inDirectory (dir name : String) : String :=
  if dir = "" ∨ endsInSlash dir then dir ++ name else dir ++ "/" ++ name

end FileTree

end CaseFolding
