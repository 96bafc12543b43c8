/-!
The arguments of the command line. Flags and the name of at most one file come in any order; flags
that ask for information are answered as soon as they are met, and what is wrong with flags taken
together is found at the end.
-/

namespace Minibasic.Command

/-- What is done with a source: it is run, or its tokens or its tree are printed. -/
inductive Mode where
  | run
  | tokens
  | tree
deriving DecidableEq

/-- What the arguments ask for. -/
inductive Request where
  | version
  | help
  | refused
  | file (name : String) (mode : Mode)
  | prompt (mode : Mode)
deriving DecidableEq

/-- What the arguments read so far have set, and how often. -/
structure Options where
  file : Option String := none
  tokens : Nat := 0
  tree : Nat := 0

namespace Options

/-- The mode, unless a flag is repeated or both are set. -/
def mode? (o : Options) : Option Mode :=
  match o.tokens, o.tree with
  | 0, 0 => some .run
  | 1, 0 => some .tokens
  | 0, 1 => some .tree
  | _, _ => none

def request (o : Options) : Request :=
  match o.mode?, o.file with
  | some m, some name => .file name m
  | some m, none => .prompt m
  | none, _ => .refused

end Options

/-- The name of a long flag: without the dashes before it and anything from an equals sign on. -/
def longName (argument : List Char) : String :=
  String.ofList ((argument.dropWhile (· = '-')).takeWhile (· ≠ '='))

/-- What a group of one-letter flags asks for; every one of these asks for something. -/
def shortRequest : List Char → Option Request
  | [] => none
  | 'h' :: _ => some .help
  | 'V' :: _ => some .version
  | _ => some .refused

/-- Reads arguments that can only be file names. -/
def files (o : Options) : List String → Request
  | [] => o.request
  | name :: rest =>
    if o.file.isSome then .refused else files { o with file := some name } rest

def readArguments (o : Options) : List String → Request
  | [] => o.request
  | argument :: rest =>
    match argument.toList with
    | ['-', '-'] => files o rest
    | '-' :: '-' :: _ =>
      match longName argument.toList with
      | "tokens" => readArguments { o with tokens := o.tokens + 1 } rest
      | "ast" => readArguments { o with tree := o.tree + 1 } rest
      | "help" => .help
      | "version" => .version
      | _ => .refused
    | '-' :: c :: cs =>
      match shortRequest (c :: cs) with
      | some r => r
      | none => readArguments o rest
    | _ =>
      if o.file.isSome then .refused
      else readArguments { o with file := some argument } rest

def Request.ofArguments (arguments : List String) : Request := readArguments {} arguments

end Minibasic.Command
