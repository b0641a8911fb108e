import Lox.Text.DecimalDigit
import Lox.Text.Quoted

/-!
# Options

The options of the command line.  A long option may be shortened as long as one
option fits, short ones may share a dash, `--` ends the options, and a word that
is not an option is the script.  No option takes an argument; behind a short one
an argument is read as more letters.  A word that looks like a negative number,
has a blank in it, or is a single dash is not an option.
-/

namespace Lox
namespace CommandLine

inductive Flag where
  | help | tokens | ast | verbose
deriving DecidableEq, Repr

namespace Flag

def spellings : List (String × Flag) :=
  [("-h", help), ("--help", help), ("--tokens", tokens), ("--ast", ast),
   ("-v", verbose), ("--verbose", verbose)]

def ofSpelling? (word : String) : Option Flag := spellings.lookup word

def ofLetter? (c : Char) : Option Flag := ofSpelling? (String.ofList ['-', c])

def title (flag : Flag) : String :=
  "/".intercalate ((spellings.filter (fun entry => entry.2 == flag)).map Prod.fst)

def completions (word : String) : List (String × Flag) :=
  spellings.filter (fun entry => word.isPrefixOf entry.1)

end Flag

inductive UsageError where
  | ambiguous (word : String) (candidates : List String)
  | ignoredArgument (flag : Flag) (argument : String)
  | conflict (flag other : Flag)
  | unrecognized (words : List String)
deriving DecidableEq, Repr

namespace UsageError

def message : UsageError → String
  | ambiguous word candidates =>
      "ambiguous option: " ++ word ++ " could match " ++ ", ".intercalate candidates
  | ignoredArgument flag argument =>
      s!"argument {flag.title}: ignored explicit argument {quoted argument}"
  | conflict flag other => s!"argument {flag.title}: not allowed with argument {other.title}"
  | unrecognized words => "unrecognized arguments: " ++ " ".intercalate words

end UsageError

/-!
## Words
-/

inductive Word where
  | plain (text : String)
  | flag (flag : Flag)
  /-- A flag with an argument that it cannot take. -/
  | flagWith (flag : Flag) (argument : String)
  /-- A flag with more letters behind it. -/
  | cluster (flag : Flag) (letters : List Char)
  | unknown (text : String)
  | terminator
deriving DecidableEq, Repr

/-- Digits, or a point and digits with or without digits in front. -/
def isUnsignedNumber (text : List Char) : Bool :=
  let whole := text.takeWhile isDecimalDigit
  match text.dropWhile isDecimalDigit with
  | [] => !whole.isEmpty
  | '.' :: places => !places.isEmpty && places.all isDecimalDigit
  | _ => false

/-- A dash and a number; a line may end behind it. -/
def isNegativeNumber (text : List Char) : Bool :=
  match text with
  | '-' :: rest =>
      isUnsignedNumber rest || (rest.getLast? == some '\n' && isUnsignedNumber rest.dropLast)
  | _ => false

def dashed (word : String) : Word :=
  if isNegativeNumber word.toList || word.toList.contains ' ' then .plain word
  else .unknown word

/-- The part before an equals sign, and the part behind it if there is one. -/
def splitArgument (word : String) : String × Option String :=
  let text := word.toList
  let name := text.takeWhile (· != '=')
  match text.dropWhile (· != '=') with
  | [] => (word, none)
  | _ :: argument => (String.ofList name, some (String.ofList argument))

def longWord (flag : Flag) : Option String → Word
  | none => .flag flag
  | some argument => .flagWith flag argument

def shortWord (flag : Flag) : Option String → Word
  | none => .flag flag
  | some "" => .flagWith flag ""
  | some letters => .cluster flag letters.toList

def readWord (word : String) : Except UsageError Word :=
  let (name, argument) := splitArgument word
  match word.toList with
  | [] | ['-'] => .ok (.plain word)
  | '-' :: '-' :: _ =>
      match Flag.ofSpelling? name, Flag.completions name with
      | some flag, _ => .ok (longWord flag argument)
      | none, [] => .ok (dashed word)
      | none, [entry] => .ok (longWord entry.2 argument)
      | none, several => .error (.ambiguous word (several.map Prod.fst))
  | '-' :: letter :: letters =>
      match Flag.ofSpelling? name, Flag.ofLetter? letter with
      | some flag, _ => .ok (shortWord flag argument)
      | none, some flag => .ok (.cluster flag letters)
      | none, none => .ok (dashed word)
  | _ => .ok (.plain word)

/-- Read all words; behind the terminator every word is plain. -/
def readWords : List String → Except UsageError (List Word)
  | [] => .ok []
  | "--" :: rest => .ok (.terminator :: rest.map .plain)
  | word :: rest => do
      let first ← readWord word
      let others ← readWords rest
      return first :: others

/-- The flags of letters that share a dash; from an unknown letter on they are an argument. -/
def readCluster (flag : Flag) : List Char → Except UsageError (List Flag)
  | [] => .ok [flag]
  | letter :: rest =>
      match Flag.ofLetter? letter with
      | none => .error (.ignoredArgument flag (String.ofList (letter :: rest)))
      | some next => do return flag :: (← readCluster next rest)

/-!
## Requests
-/

structure Options where
  script : Option String := none
  tokens : Bool := false
  ast : Bool := false
  verbose : Bool := false
deriving DecidableEq, Repr

inductive Request where
  | help
  | run (options : Options)
deriving DecidableEq, Repr

/-- The options read so far, whether a script may still be named, and the words left over. -/
structure Reading where
  options : Options := {}
  scriptOpen : Bool := true
  leftOver : List String := []

namespace Reading

/-- Set flags in order; help ends the reading. -/
def setFlags (r : Reading) : List Flag → Except UsageError (Option Reading)
  | [] => .ok (some r)
  | .help :: _ => .ok none
  | .verbose :: rest => setFlags { r with options := { r.options with verbose := true } } rest
  | .tokens :: rest =>
      if r.options.ast then .error (.conflict .tokens .ast)
      else setFlags { r with options := { r.options with tokens := true } } rest
  | .ast :: rest =>
      if r.options.tokens then .error (.conflict .ast .tokens)
      else setFlags { r with options := { r.options with ast := true } } rest

def leave (r : Reading) (word : String) : Reading :=
  { r with leftOver := r.leftOver ++ [word] }

def takeScript (r : Reading) (word : String) : Reading :=
  { r with options := { r.options with script := some word }, scriptOpen := false }

def finish (r : Reading) : Except UsageError Request :=
  if r.leftOver.isEmpty then .ok (.run r.options) else .error (.unrecognized r.leftOver)

/-- Go through the words.  The terminator belongs to the script beside it, and is left over
when the script was named elsewhere. -/
def go (r : Reading) : List Word → Except UsageError Request
  | [] => r.finish
  | .plain word :: .terminator :: rest =>
      if r.scriptOpen then (r.takeScript word).go rest
      else ((r.leave word).leave "--").go rest
  | .plain word :: rest =>
      if r.scriptOpen then (r.takeScript word).go rest else (r.leave word).go rest
  | .terminator :: .plain word :: rest =>
      if r.scriptOpen then (r.takeScript word).go rest
      else ((r.leave "--").leave word).go rest
  | .terminator :: rest =>
      if r.scriptOpen then { r with scriptOpen := false }.go rest else (r.leave "--").go rest
  | .unknown word :: rest => (r.leave word).go rest
  | .flagWith flag argument :: _ => .error (.ignoredArgument flag argument)
  | .flag flag :: rest => do
      match ← r.setFlags [flag] with
      | none => return .help
      | some r => r.go rest
  | .cluster flag letters :: rest => do
      match ← r.setFlags (← readCluster flag letters) with
      | none => return .help
      | some r => r.go rest

end Reading

def readRequest (words : List String) : Except UsageError Request := do
  Reading.go {} (← readWords words)

end CommandLine
end Lox
