import MathMarkup.Markup
import MathMarkup.Wire.Document

/-!
# Command line

What the arguments ask for, and what is printed for a source text. The stages run in a fixed order,
and the first one that fails is reported: reading, parsing, the given values, compiling, the number
of values.
-/

namespace MathMarkup.CommandLine

inductive Mode
  | tokens
  | tree
  | eval (values : String)
  deriving DecidableEq, Repr

structure Options where
  mode : Mode
  implicitProducts : Bool
  file : Option String
  deriving DecidableEq, Repr

inductive Request
  | run (options : Options)
  | version
  | help
  | misuse
  deriving DecidableEq, Repr

/-! ## Arguments -/

structure Given where
  ast : Bool := false
  tokens : Bool := false
  implicitProducts : Bool := false
  eval : Option String := none
  file : Option String := none
  deriving DecidableEq, Repr

def Given.request (given : Given) : Request :=
  let run mode := Request.run ⟨mode, given.implicitProducts, given.file⟩
  match given.ast, given.tokens, given.eval with
  | false, true, none => run .tokens
  | false, false, some values => run (.eval values)
  | _, false, none => run .tree
  | _, _, _ => .misuse

def Given.withFile (given : Given) (file : String) : Option Given :=
  if given.file.isNone ∧ file ≠ "" then some { given with file := some file } else none

def Given.withEval (given : Given) (values : String) : Option Given :=
  if given.eval.isNone then some { given with eval := some values } else none

def readFiles (given : Given) : List String → Request
  | [] => given.request
  | file :: args =>
    match given.withFile file with
    | some given => readFiles given args
    | none => .misuse

def attachedValues? (arg : String) : Option String :=
  if "--eval=".toList <+: arg.toList then some (String.ofList (arg.toList.drop 7)) else none

/-- A word that is none of the long options. A dash alone, and what does not begin with one, names a
file; of letters after a dash the first decides. -/
def readWord (given : Given) (arg : String) : Given ⊕ Request :=
  match arg.toList with
  | '-' :: 'V' :: _ => .inr .version
  | '-' :: 'h' :: _ => .inr .help
  | '-' :: _ :: _ =>
    match (attachedValues? arg).bind given.withEval with
    | some given => .inl given
    | none => .inr .misuse
  | _ =>
    match given.withFile arg with
    | some given => .inl given
    | none => .inr .misuse

def readArgs (given : Given) : List String → Request
  | [] => given.request
  | "--" :: args => readFiles given args
  | "--version" :: _ => .version
  | "--help" :: _ => .help
  | "--ast" :: args => if given.ast then .misuse else readArgs { given with ast := true } args
  | "--tokens" :: args =>
    if given.tokens then .misuse else readArgs { given with tokens := true } args
  | "--implicit-multiplication" :: args =>
    if given.implicitProducts then .misuse else readArgs { given with implicitProducts := true } args
  | ["--eval"] => ((given.withEval "").map Given.request).getD .misuse
  | "--eval" :: values :: args =>
    match given.withEval values with
    | some given => readArgs given args
    | none => .misuse
  | arg :: args =>
    match readWord given arg with
    | .inl given => readArgs given args
    | .inr request => request

def request (args : List String) : Request := readArgs {} args

/-! ## Stages -/

inductive ReadFailure
  | missing | directory | notText
  deriving DecidableEq, Repr

inductive ValueError
  | blank (position : Nat)
  | invalid (field : String)
  deriving DecidableEq, Repr

inductive Error
  | read (reason : ReadFailure)
  | markup (reason : MarkupError)
  | values (reason : ValueError)
  | call (reason : CallError)
  | write (reason : Wire.NoWireForm)
  deriving DecidableEq, Repr

def ReadFailure.message : ReadFailure → String
  | missing => "No such file or directory (os error 2)"
  | directory => "Is a directory (os error 21)"
  | notText => "stream did not contain valid UTF-8"

def ValueError.message : ValueError → String
  | blank position => s!"empty value at position {position}"
  | invalid field => s!"invalid value `{field}`"

def Error.message : Error → String
  | read reason => s!"cannot read input: {reason.message}"
  | markup reason => reason.message
  | values reason => reason.message
  | call reason => reason.message
  | write reason => reason.message

def decodeSource (bytes : ByteArray) : Except ReadFailure String :=
  match String.fromUTF8? bytes with
  | some text => .ok text
  | none => .error .notText

def fields : List Char → List (List Char)
  | [] => [[]]
  | c :: cs =>
    if c = ',' then [] :: fields cs
    else match fields cs with
      | [] => [[c]]
      | field :: more => (c :: field) :: more

def readField (position : Nat) (field : String) : Except ValueError Float :=
  if field = "" then .error (.blank position)
  else match Decimal.read? field with
    | some value => .ok value
    | none => .error (.invalid field)

def readFields (position : Nat) : List (List Char) → Except ValueError (List Float)
  | [] => .ok []
  | field :: more => do
    let value ← readField position (Text.trim (String.ofList field))
    let values ← readFields (position + 1) more
    return value :: values

/-- Values between commas. A blank text holds none, and every field of another text holds one. -/
def parseValues (text : String) : Except ValueError (List Float) :=
  if Text.trim text = "" then .ok [] else readFields 1 (fields text.toList)

def evaluate (e : Expr) (values : String) : Except Error Float := do
  let args ← (parseValues values).mapError .values
  let f ← e.compile.mapError fun reason => .markup (.compile reason)
  (f.call args).mapError .call

def output (mode : Mode) (implicitProducts : Bool) (source : String) : Except Error String := do
  let tokens := lex (Text.trimEnd source)
  let parsed := ((Grammar.standard implicitProducts).parseComplete tokens).mapError fun failure =>
    Error.markup (.parse failure)
  match mode with
  | .tokens => return String.join (tokens.map fun t => t.listing ++ "\n")
  | .tree =>
    let e ← parsed
    let text ← (e.toJson Json.pretty).mapError .write
    return text ++ "\n"
  | .eval values =>
    let e ← parsed
    let value ← evaluate e values
    return Decimal.write value ++ "\n"

structure Report where
  exit : Nat
  stdout : String
  stderr : String
  deriving DecidableEq, Repr

def report : Except Error String → Report
  | .ok text => ⟨0, text, ""⟩
  | .error reason => ⟨1, "", s!"error: {reason.message}\n"⟩

def run (options : Options) (source : Except ReadFailure String) : Report :=
  report (source.mapError .read >>= output options.mode options.implicitProducts)

def versionText : String := "texmath 0.1.0\n"

/-- One line that stands in for the help and for what is said to arguments that cannot be read; their
longer texts are not part of the library. -/
def usage : String :=
  "usage: texmath [--ast | --tokens | --eval [VALUES]] [--implicit-multiplication] [FILE]\n"

end MathMarkup.CommandLine
