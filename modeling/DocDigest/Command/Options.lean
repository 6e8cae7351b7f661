import DocDigest.Settings.Combine

/-!
# The command line

A command line is a list of words: options, long or short, with or without values, and other words.
It asks either for the document of a project or for a config file, or else it is answered with a
message about how to use the program. Words are read from left to right and the first one that
settles the answer does.
-/

set_option autoImplicit false

namespace DocDigest

namespace Command

/-- The options. -/
inductive Opt where
  | root
  | output
  | format
  | extensions
  | exclude
  | noDefaultExcludes
  | followSymlinks
  | config
  | verbose
  | help
  | version
deriving DecidableEq

namespace Opt

/-- What stands after the two dashes of the long form. -/
def long : Opt → Text
  | root => "root".toList
  | output => "output".toList
  | format => "format".toList
  | extensions => "extensions".toList
  | exclude => "exclude".toList
  | noDefaultExcludes => "no-default-excludes".toList
  | followSymlinks => "follow-symlinks".toList
  | config => "config".toList
  | verbose => "verbose".toList
  | help => "help".toList
  | version => "version".toList

/-- The letter after the dash of the short form. -/
def short? : Opt → Option Char
  | root => some 'r'
  | output => some 'o'
  | format => some 'f'
  | extensions => some 'e'
  | exclude => some 'x'
  | noDefaultExcludes => none
  | followSymlinks => none
  | config => some 'c'
  | verbose => some 'v'
  | help => some 'h'
  | version => some 'V'

/-- Whether an option has a value. -/
def hasValue : Opt → Bool
  | root | output | format | extensions | exclude | config => true
  | _ => false

/-- Whether an option's value is a path; a path is not empty. -/
def isPath : Opt → Bool
  | root | output | config => true
  | _ => false

/-- Whether an option may stand more than once. -/
def isRepeatable : Opt → Bool
  | exclude => true
  | _ => false

def all : List Opt :=
  [root, output, format, extensions, exclude, noDefaultExcludes, followSymlinks, config, verbose,
    help, version]

def ofInit : List Opt := [verbose, help]

end Opt

/-- Why a command line asks for no work. -/
inductive Stop where
  | misuse
  | help
  | version
deriving DecidableEq

/-- What was read of a command line. -/
structure Given where
  /-- The options with their values, the last one first. An option without a value has an empty
  one. -/
  options : List (Opt × Text)
  /-- The words that belong to no option, the last one first. -/
  words : List Text

namespace Given

def none : Given := ⟨[], []⟩

def has (g : Given) (o : Opt) : Bool := g.options.any (·.1 == o)

def values (g : Given) (o : Opt) : List Text :=
  (g.options.reverse.filter (·.1 == o)).map (·.2)

/-- The value that an option was given first. -/
def value? (g : Given) (o : Opt) : Option Text := (g.values o).head?

def add (g : Given) (o : Opt) (value : Text) : Except Stop Given :=
  match o with
  | .help => .error .help
  | .version => .error .version
  | _ =>
    if g.has o && !o.isRepeatable then .error .misuse
    else if o.isPath && value.isEmpty then .error .misuse
    else .ok { g with options := (o, value) :: g.options }

/-- Adds a word that belongs to no option; there is room for `room` of them and none is empty. -/
def addWord (g : Given) (room : Nat) (word : Text) : Except Stop Given :=
  if g.words.length < room && !word.isEmpty then .ok { g with words := word :: g.words }
  else .error .misuse

end Given

/-- Reads the letters after a single dash: options without values, and perhaps at last one with a
value, which may stand right behind its letter, or behind it and an equals sign. An option whose
value is still to come is given back. -/
def readLetters (known : List Opt) (g : Given) : Text → Except Stop (Given × Option Opt)
  | [] => .ok (g, none)
  | c :: rest =>
    match known.find? (·.short? == some c) with
    | none => .error .misuse
    | some o =>
      if o.hasValue then
        match rest with
        | [] => .ok (g, some o)
        | '=' :: value => (g.add o value).map (·, none)
        | value => (g.add o value).map (·, none)
      else
        match g.add o [] with
        | .error stop => .error stop
        | .ok g => readLetters known g rest

/-- Reads what stands after two dashes: an option's name, and perhaps an equals sign and a value. An
option whose value is still to come is given back. -/
def readLong (known : List Opt) (g : Given) (word : Text) : Except Stop (Given × Option Opt) :=
  let name := word.takeWhile (· != '=')
  match known.find? (·.long == name), word.dropWhile (· != '=') with
  | none, _ => .error .misuse
  | some o, [] => if o.hasValue then .ok (g, some o) else (g.add o []).map (·, none)
  | some o, _ :: value => if o.hasValue then (g.add o value).map (·, none) else .error .misuse

/-- Reads the words of a command line. `waiting` is the option whose value is to come next. After
two dashes alone, no word is an option. -/
def readWords (known : List Opt) (room : Nat) (g : Given) (waiting : Option Opt) :
    List Text → Except Stop Given
  | [] => if waiting.isSome then .error .misuse else .ok g
  | word :: rest =>
    match waiting, word with
    -- what looks like an option is no value
    | some _, '-' :: _ :: _ => .error .misuse
    | some o, value => do readWords known room (← g.add o value) none rest
    | none, ['-', '-'] => rest.foldlM (fun g word => g.addWord room word) g
    | none, '-' :: '-' :: long => do
      let (g, waiting) ← readLong known g long
      readWords known room g waiting rest
    | none, '-' :: c :: letters => do
      let (g, waiting) ← readLetters known g (c :: letters)
      readWords known room g waiting rest
    | none, word => do readWords known room (← g.addWord room word) none rest

/-- What a command line asks for. -/
inductive Request where
  | digest (root : Path) (config : Option Path) (choices : Choices) (verbose : Bool)
  | init (path : Path)
deriving DecidableEq

namespace Request

/-- The directory that is meant when none is named. -/
def here : Path := ⟨['.']⟩

/-- The request for a document with the given options. -/
def ofGiven (g : Given) : Request :=
  .digest ((g.value? .root).elim here Path.mk) ((g.value? .config).map Path.mk)
    { output := (g.value? .output).map Path.mk
      format := g.value? .format
      extensions := g.value? .extensions
      exclude := g.values .exclude
      noDefaultExcludes := g.has .noDefaultExcludes
      followSymlinks := g.has .followSymlinks }
    (g.has .verbose)

def ofInitWords (words : List Text) : Except Stop Request :=
  (readWords Opt.ofInit 1 Given.none none words).map fun g =>
    .init (g.words.head?.elim here Path.mk)

/-- The answer to the words after `help`: at most the name of a command. -/
def ofHelpWords (words : List Text) : Stop :=
  if words = [] ∨ words = ["init".toList] ∨ words = ["help".toList] then .help else .misuse

/-- The request in the words of a command line. -/
def ofWords (words : List Text) : Except Stop Request :=
  match words with
  | [] => .ok (ofGiven Given.none)
  | first :: rest =>
    if first = "init".toList then ofInitWords rest
    else if first = "help".toList then .error (ofHelpWords rest)
    else (readWords Opt.all 0 Given.none none words).map ofGiven

end Request

end Command

end DocDigest
