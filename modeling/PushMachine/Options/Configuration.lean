import PushMachine.Options.Basic
import PushMachine.Token
import PushMachine.Text.Lines
/-!
# Configurations

A configuration is a text of lines.  From a number sign on, a line is a comment; what remains is blank or a key and
its setting.  A key may be repeated: of a field the last setting counts, and each type and instruction named is added
to those allowed.  Keys that are not given keep their defaults.  The first line that cannot be read is reported with
its number; only if all can, the values are checked together.
-/
namespace PushMachine
namespace Configuration

/-- What a line with a key and a setting adds. -/
inductive Entry where
  | setting (s : Setting)
  | allowType (label : String)
  | allowInstruction (token : String)

inductive LineError where
  | missingSetting (key : String)
  | unknownKey (key : String)
  | unknownType (setting : String)
  | unknownInstruction (setting : String)
  | notInteger (setting : String)
  | notFloat (setting : String)
  | notBoolean (setting : String)
  deriving DecidableEq, Repr

/-- A text between quotation marks, as it stands. -/
def marked (s : String) : String := "\"" ++ s ++ "\""

def LineError.message : LineError → String
  | .missingSetting key     => "expected setting to follow " ++ marked key
  | .unknownKey key         => "unknown parameter " ++ marked key
  | .unknownType s          => "unknown type: " ++ marked s
  | .unknownInstruction s   => "unknown instruction: " ++ marked s
  | .notInteger s           => "could not parse " ++ marked s ++ " as integer"
  | .notFloat s             => "could not parse " ++ marked s ++ " as float"
  | .notBoolean s           => "could not parse " ++ marked s ++ " as boolean"

inductive Error where
  | line (number : Nat) (cause : LineError)
  | invalid (problems : List Problem)

def Error.message : Error → String
  | .line _ cause      => cause.message
  | .invalid problems  => Problem.joined problems

/-- The line at fault, if there is one. -/
def Error.line? : Error → Option Nat
  | .line number _ => some number
  | .invalid _     => none

/-! ## Settings -/

def readBoolean? (cs : List Char) : Option Bool :=
  let word := String.ofList (Text.lowerChars cs)
  if ["true", "t", "1", "yes"].contains word then some true
  else if ["false", "f", "0", "no"].contains word then some false
  else none

/-- Whether a lower-cased text names an operation of a known stack. -/
def isReference (cs : List Char) : Bool :=
  match Token.cutAtPoint cs with
  | some (stack, operation) => !operation.isEmpty && (Kind.ofLabel? (String.ofList stack)).isSome
  | none                    => false

/-- Read the setting of a lower-cased key. -/
def readSetting (key : String) (setting : List Char) : Except LineError Entry :=
  let text := String.ofList setting
  let lowered := Text.lowerChars setting
  if key = "type" then
    if (Kind.ofLabel? (String.ofList lowered)).isSome then .ok (.allowType (String.ofList lowered))
    else .error (.unknownType text)
  else if key = "instruction" then
    if isReference lowered then .ok (.allowInstruction (String.ofList lowered)) else .error (.unknownInstruction text)
  else if let some f := IntegerField.all.find? (·.key == key) then
    match Number.settingInteger? setting with
    | some n => .ok (.setting (.integer f n))
    | none   => .error (.notInteger text)
  else if let some f := FloatField.all.find? (·.key == key) then
    match Number.settingFloat? setting with
    | some x => .ok (.setting (.float f x))
    | none   => .error (.notFloat text)
  else if let some f := FlagField.all.find? (·.key == key) then
    match readBoolean? setting with
    | some b => .ok (.setting (.flag f b))
    | none   => .error (.notBoolean text)
  else .error (.unknownKey key)

/-! ## Lines -/

/-- A line without its comment and the blanks around it. -/
def content (line : List Char) : List Char := Text.trim (line.takeWhile (· != '#'))

/-- What a line adds, if it is not blank. -/
def readLine (line : List Char) : Except LineError (Option Entry) :=
  match content line with
  | []   => .ok none
  | text =>
    let (word, setting) := Text.cutWord text
    let key := String.ofList (Text.lowerChars word)
    if setting.isEmpty then .error (.missingSetting key) else (readSetting key setting).map some

/-- The entries of the lines from `number` on, up to the first line that cannot be read. -/
def readLines (number : Nat) : List (List Char) → Except Error (List Entry)
  | []            => .ok []
  | line :: rest  =>
    match readLine line with
    | .error cause     => .error (.line number cause)
    | .ok none         => readLines (number + 1) rest
    | .ok (some entry) => (readLines (number + 1) rest).map (entry :: ·)

end Configuration

namespace Options

def add (o : Options) : Configuration.Entry → Options
  | .setting s              => o.set s
  | .allowType label        => { o with types := NameSet.insert label o.types }
  | .allowInstruction token => { o with instructions := NameSet.insert token o.instructions }

/-- **The options that the lines of a configuration give.** -/
def ofLines (lines : List (List Char)) : Except Configuration.Error Options :=
  match Configuration.readLines 1 lines with
  | .error e     => .error e
  | .ok entries  =>
    match (entries.foldl add {}).validated with
    | .error problems => .error (.invalid problems)
    | .ok o           => .ok o

/-- The options of a configuration held in memory. -/
def ofText (text : String) : Except Configuration.Error Options := ofLines (Text.lines text.toList)

/-- The options of a configuration file with this content. -/
def ofFile (content : String) : Except Configuration.Error Options := ofLines (Text.fileLines content.toList)

end Options
end PushMachine
