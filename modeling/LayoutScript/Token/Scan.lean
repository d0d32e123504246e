import LayoutScript.Fault
import LayoutScript.Text.Blank
import LayoutScript.Text.Cursor
import LayoutScript.Token

/-! # Scanning scripts

A script is scanned from left to right, one token at a time, up to its end or the first
text that is no token. Blanks may stand before every part of a declaration; a comment
reaches to the end of its line.
-/
namespace LayoutScript

def reservedWords : List String :=
  ["bit", "bool", "byte", "ubyte", "short", "ushort", "int", "long", "align", "skip", "var",
    "reset$$"]

/-- A letter or underscore, and then also digits. -/
def isIdentifier : List Char → Bool
  | [] => false
  | c :: cs => (c.isAlpha || c == '_') && cs.all isNameChar

/-- The rule that a word breaks as the name of a field or structure. -/
def brokenNameRule (customTypes : List String) (name : List Char) : Option NameRule :=
  let reserves (words : List String) : Bool := words.any (sameName (String.ofList name))
  if name.contains '.' then some .dotted
  else if name.head? = some '$' then some .dollar
  else if reserves reservedWords then some .reserved
  else if reserves customTypes then some .customType
  else if isIdentifier name then none
  else some .shape

namespace Token

/-- The characters that end a type or a name, apart from blanks. -/
def isStop (c : Char) : Bool := c == ';' || c == '[' || c == ']' || c == '\x7b' || c == '\x7d'

/-- Passes over a type inside `depth` parentheses, where blanks belong to it. Answers whether
all parentheses are closed. -/
def passType (depth : Nat) (pos : Nat) : List Char → Bool × TextCursor
  | [] => (depth == 0, ⟨pos, []⟩)
  | c :: cs =>
    if isStop c || (depth == 0 && isBlank c) then (depth == 0, ⟨pos, c :: cs⟩)
    else
      let depth := if c == '(' then depth + 1 else if c == ')' then depth - 1 else depth
      passType depth (pos + c.utf8Size) cs

/-- Text that belongs to no token, up to the end of its line or declaration. -/
def strayText (cs : List Char) : String :=
  let ends (c : Char) : Bool := c == '\n' || c == ';' || c == '\x7b' || c == '\x7d'
  String.ofList (trimmed (cs.takeWhile (!ends ·) ++ (cs.dropWhile (!ends ·)).take 1))

def faultUpTo (start stop : TextCursor) (cause : LexicalCause) : Fault :=
  .lexical start.pos (String.ofList (trimmed (start.upTo stop))) cause

def strayFault (start : TextCursor) : Fault :=
  .lexical start.pos (strayText start.rest) .strayText

def scanSize (start c : TextCursor) : Except Fault (Option String × TextCursor) :=
  match c.rest with
  | '[' :: cs =>
    let inner : TextCursor := ⟨c.pos + 1, cs⟩
    let stop := inner.dropWhile (!isStop ·)
    match stop.rest with
    | ']' :: rest =>
      let size := trimmed (inner.upTo stop)
      if size.isEmpty then .error (faultUpTo start c .emptySize)
      else .ok (some (String.ofList size), ⟨stop.pos + 1, rest⟩)
    | _ => .error (strayFault start)
  | _ => .ok (none, c)

def word? (cs : List Char) : Option (List Char) := if cs.isEmpty then none else some cs

def checkName (customTypes : List String) (start : TextCursor) (name : List Char) :
    Except Fault String :=
  match brokenNameRule customTypes name with
  | some rule => .error (.lexical start.pos (String.ofList name) (.name rule))
  | none => .ok (String.ofList name)

/-- An opening from the word before the size and the word after it, one of which may name
the structure. -/
def opening (customTypes : List String) (start stop : TextCursor) (size : Option String)
    (type? name? : Option (List Char)) : Except Fault Declared := do
  if type?.isSome && name?.isSome then throw (faultUpTo start stop .typedStructure)
  match name? <|> type? with
  | some name => return .opening size (some (← checkName customTypes start name))
  | none => return .opening size none

/-- A field from the word before the size and the word after it. -/
def field (customTypes : List String) (start stop : TextCursor) (size : Option String)
    (type? name? : Option (List Char)) : Except Fault Declared := do
  let some type := type? | throw (faultUpTo start stop .missingType)
  let some spec := TypeSpec.parse? type | throw (faultUpTo start stop .badType)
  match name? with
  | some name => return .field spec size (some (← checkName customTypes start name))
  | none => return .field spec size none

/-- Scans the declaration of a field or an opening: a type, a size and a name, each of which
may be missing, and the character that ends it. -/
def scanDeclaration (customTypes : List String) (start : TextCursor) :
    Except Fault (Declared × TextCursor) :=
  match passType 0 start.pos start.rest with
  | (false, stop) => .error (faultUpTo start stop .openParenthesis)
  | (true, afterType) => do
    let type? := word? (start.upTo afterType)
    let (size, afterSize) ← scanSize start (afterType.dropWhile isBlank)
    let beforeName := afterSize.dropWhile isBlank
    let afterName := beforeName.dropWhile fun c => !(isBlank c || isStop c || c == '/')
    let name? := word? (beforeName.upTo afterName)
    let ending := afterName.dropWhile isBlank
    match ending.rest with
    | '\x7b' :: rest =>
      let stop := ⟨ending.pos + 1, rest⟩
      return (← opening customTypes start stop size type? name?, stop)
    | ';' :: rest =>
      let stop := ⟨ending.pos + 1, rest⟩
      return (← field customTypes start stop size type? name?, stop)
    | _ => throw (strayFault start)

def scanDeclared (customTypes : List String) (start : TextCursor) :
    Except Fault (Declared × TextCursor) :=
  match start.rest with
  | '/' :: '/' :: body =>
    let stop := (⟨start.pos + 2, body⟩ : TextCursor).dropWhile (· != '\n')
    let line := body.takeWhile (· != '\n')
    .ok (.comment (String.ofList (line.reverse.dropWhile (· == '\r')).reverse), stop)
  | '\x7d' :: rest => .ok (.closing, ⟨start.pos + 1, rest⟩)
  | _ => scanDeclaration customTypes start

theorem passType_passes (depth pos : Nat) (cs : List Char) :
    ∃ text, TextCursor.Passes ⟨pos, cs⟩ text (passType depth pos cs).2 := by
  induction cs generalizing depth pos with
  | nil => exact ⟨[], TextCursor.passes_refl _⟩
  | cons c cs ih =>
    rw [passType]
    split
    · exact ⟨[], TextCursor.passes_refl _⟩
    · obtain ⟨text, h, k⟩ := ih
        (if c == '(' then depth + 1 else if c == ')' then depth - 1 else depth) (pos + c.utf8Size)
      exact ⟨c :: text, by simpa using h, by simpa [Nat.add_assoc] using k⟩

theorem scanSize_shorter {start c c' : TextCursor} {size : Option String}
    (h : scanSize start c = .ok (size, c')) : c'.rest.length ≤ c.rest.length := by
  unfold scanSize at h
  split at h
  · rename_i cs hc
    dsimp only at h
    split at h
    · rename_i rest hstop
      split at h
      · simp at h
      · cases h
        have := (TextCursor.passes_dropWhile (!isStop ·) ⟨c.pos + 1, cs⟩).length_le
        rw [hstop] at this
        simp only [hc, List.length_cons] at *
        omega
    · simp at h
  · cases h
    exact Nat.le_refl _

theorem scanDeclaration_shorter {customTypes : List String} {start stop : TextCursor}
    {d : Declared} (h : scanDeclaration customTypes start = .ok (d, stop)) :
    stop.rest.length < start.rest.length := by
  obtain ⟨_, htype⟩ := passType_passes 0 start.pos start.rest
  have h1 := htype.length_le
  unfold scanDeclaration at h
  split at h
  · simp at h
  rename_i afterType hty
  rw [hty] at h1
  simp only [bind, Except.bind] at h
  split at h
  · simp at h
  rename_i afterSize hsize
  have h2 := (TextCursor.passes_dropWhile isBlank afterType).length_le
  have h3 := scanSize_shorter hsize
  have h4 := (TextCursor.passes_dropWhile isBlank afterSize.2).length_le
  have h5 := (TextCursor.passes_dropWhile (fun c => !(isBlank c || isStop c || c == '/'))
    (afterSize.2.dropWhile isBlank)).length_le
  have h6 := (TextCursor.passes_dropWhile isBlank ((afterSize.2.dropWhile isBlank).dropWhile
    fun c => !(isBlank c || isStop c || c == '/'))).length_le
  split at h
  case h_3 => simp [throw, throwThe, MonadExceptOf.throw] at h
  all_goals
    rename_i rest hrest
    rw [hrest] at h6
    split at h
    · simp at h
    · cases h
      simp only [List.length_cons] at h6
      simp only at h1 ⊢
      omega

theorem scanDeclared_shorter {customTypes : List String} {start stop : TextCursor}
    {d : Declared} (h : scanDeclared customTypes start = .ok (d, stop)) :
    stop.rest.length < start.rest.length := by
  unfold scanDeclared at h
  split at h
  · rename_i body hs
    cases h
    have := (TextCursor.passes_dropWhile (· != '\n') ⟨start.pos + 2, body⟩).length_le
    simp only [hs, List.length_cons] at *
    omega
  · rename_i rest hs
    cases h
    simp [hs]
  · exact scanDeclaration_shorter h

/-- The tokens from a place on, ended by the fault of the first text that is no token. -/
def scanFrom (customTypes : List String) (c : TextCursor) : List (Except Fault Token) :=
  let start := c.dropWhile isBlank
  if start.rest = [] then []
  else
    match h : scanDeclared customTypes start with
    | .error fault => [.error fault]
    | .ok (declared, stop) =>
      have : stop.rest.length < c.rest.length :=
        Nat.lt_of_lt_of_le (scanDeclared_shorter h) (TextCursor.passes_dropWhile isBlank c).length_le
      .ok ⟨start.pos, declared⟩ :: scanFrom customTypes stop
termination_by c.rest.length

/-- The tokens of a script. Besides the reserved words, the names of custom types are kept
from naming fields. -/
def scan (customTypes : List String) (script : String) : List (Except Fault Token) :=
  scanFrom customTypes (TextCursor.ofList script.toList)

end Token
end LayoutScript
