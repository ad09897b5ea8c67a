/-!
# Arguments of a command

The convention for options: a long option is written `--name`, with its value after an equals sign or as the next
argument; a short one is written `-n`, several of them may share a dash, and a value follows at once or as the next
argument.  An option that takes a value takes the next argument whatever it looks like.  Two dashes end the options.
-/
namespace PushMachine
namespace Command

inductive UsageError where
  | unknownOption (argument : String)
  | missingValue (argument : String)
  | unexpectedValue (argument : String)
  | unexpectedArgument (argument : String)
  | missingArgument
  | missingCommand
  | unknownCommand (name : String)
  | notInteger (value : String)
  | noSuchFile (path : String)
  deriving DecidableEq, Repr

def UsageError.message : UsageError → String
  | .unknownOption a      => "no such option: " ++ a
  | .missingValue a       => "option " ++ a ++ " requires an argument"
  | .unexpectedValue a    => "option " ++ a ++ " does not take a value"
  | .unexpectedArgument a => "unexpected argument: " ++ a
  | .missingArgument      => "missing argument"
  | .missingCommand       => "missing command"
  | .unknownCommand n     => "no such command: " ++ n
  | .notInteger v         => "not a valid integer: " ++ v
  | .noSuchFile p         => "no such file: " ++ p

/-- What an option means: something by itself, or something of its value. -/
inductive Meaning (α : Type) where
  | flag (result : α)
  | value (result : String → α)

structure Switch (α : Type) where
  long    : String
  short   : Option Char := none
  meaning : Meaning α

/-- The options found in an argument, and the one among them that still needs a value. -/
structure Reading (α : Type) where
  found   : List α := []
  pending : Option (String → α) := none

variable {α : Type}

/-- The short options that share a dash. -/
def readCluster (switches : List (Switch α)) (argument : String) : List Char → Except UsageError (Reading α)
  | []      => .ok {}
  | c :: cs =>
    match switches.find? (·.short == some c) with
    | none   => .error (.unknownOption argument)
    | some s =>
      match s.meaning with
      | .flag r  => (readCluster switches argument cs).map fun rest => { rest with found := r :: rest.found }
      | .value r =>
        if cs.isEmpty then .ok { pending := some r } else .ok { found := [r (String.ofList cs)] }

/-- The text before the first equals sign, and the text after it if there is one. -/
def cutValue (cs : List Char) : List Char × Option (List Char) :=
  match cs.dropWhile (· != '=') with
  | []        => (cs, none)
  | _ :: rest => (cs.takeWhile (· != '='), some rest)

/-- One argument that starts with a dash. -/
def readOption (switches : List (Switch α)) (argument : String) : Except UsageError (Reading α) :=
  let (name, value) := cutValue argument.toList
  match switches.find? (·.long.toList == name), value with
  | some s, none   =>
    match s.meaning with
    | .flag r  => .ok { found := [r] }
    | .value r => .ok { pending := some r }
  | some s, some v =>
    match s.meaning with
    | .flag _  => .error (.unexpectedValue argument)
    | .value r => .ok { found := [r (String.ofList v)] }
  | none,   _      =>
    match argument.toList with
    | '-' :: '-' :: _ => .error (.unknownOption argument)
    | cs              => readCluster switches argument cs.tail

/-- Whether an argument is one or more options. -/
def isOption (argument : String) : Bool :=
  match argument.toList with
  | '-' :: _ :: _ => true
  | _             => false

/-- **The options and the other arguments.**  Where options are not `mixed` with other arguments, the first of these
ends them. -/
def readArguments (switches : List (Switch α)) (mixed : Bool) : List String → Except UsageError (List α × List String)
  | []          => .ok ([], [])
  | arg :: args =>
    if arg = "--" then .ok ([], args)
    else if isOption arg then
      match readOption switches arg with
      | .error e      => .error e
      | .ok reading   =>
        match reading.pending, args with
        | none,   args       => (readArguments switches mixed args).map fun (os, as) => (reading.found ++ os, as)
        | some _, []         => .error (.missingValue arg)
        | some r, v :: args  =>
          (readArguments switches mixed args).map fun (os, as) => (reading.found ++ r v :: os, as)
    else if mixed then (readArguments switches mixed args).map fun (os, as) => (os, arg :: as)
    else .ok ([], arg :: args)

end Command
end PushMachine
