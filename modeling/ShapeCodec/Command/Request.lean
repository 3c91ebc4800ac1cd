import ShapeCodec.Settings

/-! # Requests

What the arguments of a command line ask for. There are two commands, `classify` and `load`. Options
take their values behind an equals sign, in the same word or as the next word; the inputs of `load`
take all words up to the next option.
-/

namespace ShapeCodec

inductive UsageFault
  | nothingGiven
  | helpAsked
  | unknownCommand
  | unknownArgument
  | missingArgument
  | missingValue
  | surplusValue
  | repeatedOption
deriving DecidableEq

structure LoadRequest where
  document : String
  inputs : List String
  settings : Settings
  spread : Bool
  out? : Option String

inductive Request
  | classify (document : String)
  | load (request : LoadRequest)

inductive ValueOption
  | document
  | input
  | out
deriving DecidableEq

inductive Switch
  | noCastDecimal
  | decimalsAsNumbers
  | recordsAsLists
  | pretty
deriving DecidableEq

/-- What a word that starts with a dash can be. -/
inductive KnownOption
  | help
  | value (option : ValueOption)
  | switch (switch : Switch)

inductive CommandName
  | classify
  | load
deriving DecidableEq

namespace CommandName

def ofText? (s : String) : Option CommandName :=
  if s = "classify" then some classify else if s = "load" then some load else none

def long? (c : CommandName) (name : String) : Option KnownOption :=
  match c, name with
  | _, "help" => some .help
  | _, "type" => some (.value .document)
  | load, "input" => some (.value .input)
  | load, "out" => some (.value .out)
  | load, "no-cast-decimal" => some (.switch .noCastDecimal)
  | load, "decimals-as-numbers" => some (.switch .decimalsAsNumbers)
  | load, "records-as-lists" => some (.switch .recordsAsLists)
  | load, "pretty" => some (.switch .pretty)
  | _, _ => none

def short? (c : CommandName) (letter : Char) : Option KnownOption :=
  match c, letter with
  | _, 'h' => some .help
  | _, 't' => some (.value .document)
  | load, 'i' => some (.value .input)
  | load, 'o' => some (.value .out)
  | _, _ => none

end CommandName

inductive Word
  | plain (text : String)
  /-- The word behind which there are no options. -/
  | endOfOptions
  | long (name : String) (value? : Option String)
  | short (letter : Char) (rest : List Char)

def Word.ofText (s : String) : Word :=
  match s.toList with
  | ['-', '-'] => endOfOptions
  | '-' :: '-' :: cs =>
    long (String.ofList (cs.takeWhile (· != '=')))
      (match cs.dropWhile (· != '=') with
        | _ :: value => some (String.ofList value)
        | [] => none)
  | '-' :: c :: cs => short c cs
  | _ => plain s

/-- The options of a command as far as they have been taken in. -/
structure Options where
  document? : Option String := none
  inputs? : Option (List String) := none
  out? : Option String := none
  switches : List Switch := []

/-- An option whose values are still coming in, last first. -/
structure Pending where
  option : ValueOption
  values : List String
  /-- Set when the next plain word belongs to the option. -/
  isOpen : Bool

namespace Options

/-- Takes in the value of an option that has one, once, and not an empty one. -/
def takeOne (old : Option String) : List String → Except UsageFault (Option String)
  | [] => .error .missingValue
  | value :: _ =>
    if old.isSome then .error .repeatedOption
    else if value.isEmpty then .error .missingValue
    else .ok (some value)

def take (o : Options) (option : ValueOption) (values : List String) : Except UsageFault Options :=
  match option with
  | .document => (takeOne o.document? values).map fun d => { o with document? := d }
  | .out => (takeOne o.out? values).map fun d => { o with out? := d }
  | .input =>
    if values.isEmpty then .error .missingValue
    else .ok { o with inputs? := some (o.inputs?.getD [] ++ values) }

def settle (o : Options) : Option Pending → Except UsageFault Options
  | none => .ok o
  | some p => o.take p.option p.values.reverse

def turnOn (o : Options) (s : Switch) : Except UsageFault Options :=
  if s ∈ o.switches then .error .repeatedOption else .ok { o with switches := s :: o.switches }

/-- Takes in an option that has been recognised, with the value in the same word. -/
def recognise (o : Options) (pending : Option Pending) (option : KnownOption)
    (value? : Option String) : Except UsageFault (Options × Option Pending) := do
  match option, value? with
  | .value v, none => return (← o.settle pending, some ⟨v, [], true⟩)
  | .value v, some value => return (← (← o.settle pending).take v [value], none)
  | _, some _ => throw .surplusValue
  | .help, none => do
    let _ ← o.settle pending
    throw .helpAsked
  | .switch s, none => return (← (← o.settle pending).turnOn s, none)

def read (c : CommandName) (o : Options) (pending : Option Pending) :
    List Word → Except UsageFault Options
  | [] => o.settle pending
  | .endOfOptions :: rest => if rest.isEmpty then o.settle pending else .error .unknownArgument
  | .long name value? :: rest =>
    match c.long? name with
    | none => .error .unknownArgument
    | some option => do
      let (o, pending) ← o.recognise pending option value?
      read c o pending rest
  | .short letter cs :: rest =>
    match c.short? letter with
    | none => .error .unknownArgument
    | some .help => do
      let _ ← o.settle pending
      throw .helpAsked
    | some option => do
      let value? := match cs with
        | [] => none
        | '=' :: cs => some (String.ofList cs)
        | cs => some (String.ofList cs)
      let (o, pending) ← o.recognise pending option value?
      read c o pending rest
  | .plain text :: rest =>
    match pending with
    | some p =>
      if p.isOpen then
        read c o (some ⟨p.option, text :: p.values, p.option == .input⟩) rest
      else .error .unknownArgument
    | none => .error .unknownArgument

def settings (o : Options) : Settings where
  castDecimal := .noCastDecimal ∉ o.switches
  decimalsAsNumbers := .decimalsAsNumbers ∈ o.switches
  recordsAsLists := .recordsAsLists ∈ o.switches

def toRequest (c : CommandName) (o : Options) : Except UsageFault Request :=
  match c, o.document?, o.inputs? with
  | .classify, some document, _ => .ok (.classify document)
  | .load, some document, some inputs =>
    .ok (.load ⟨document, inputs, o.settings, .pretty ∈ o.switches, o.out?⟩)
  | _, _, _ => .error .missingArgument

end Options

namespace Request

/-- What is asked about a command by `help` and the words behind it. -/
def helpFault : List String → UsageFault
  | [] => .helpAsked
  | [word] =>
    if (CommandName.ofText? word).isSome || word = "help" then .helpAsked else .unknownCommand
  | _ => .unknownCommand

/-- What a command line asks for. -/
def ofArguments : List String → Except UsageFault Request
  | [] => .error .nothingGiven
  | word :: rest =>
    match Word.ofText word with
    | .plain text =>
      match CommandName.ofText? text with
      | some c => ({} : Options).read c none (rest.map Word.ofText) >>= Options.toRequest c
      | none => .error (if text = "help" then helpFault rest else .unknownCommand)
    | .endOfOptions =>
      match rest with
      | [] => .error .nothingGiven
      | next :: _ =>
        .error (if (CommandName.ofText? next).isSome || next = "help" then .unknownArgument
          else .unknownCommand)
    | .long name value? =>
      .error (if name = "help" then (if value?.isSome then .surplusValue else .helpAsked)
        else .unknownArgument)
    | .short letter _ => .error (if letter = 'h' then .helpAsked else .unknownArgument)

end Request

end ShapeCodec
