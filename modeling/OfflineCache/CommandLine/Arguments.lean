import OfflineCache.CommandLine.Option

/-! How the words of a command line are read. A command has options and, except at the leaves,
commands below it, so the words make a list of levels, the outermost first. A value that stands
in a word of its own is read when the next option comes or its level ends; one that is attached
to its option is read at once. -/

namespace OfflineCache.CommandLine

inductive Command where
  | top
  | fetch
  | check
  | cache
  | cachePath
  | cacheList
  | cacheClean
  | help
  deriving DecidableEq, Repr

namespace Command

/-- The commands below, by their words. -/
def children : Command → List (String × Command)
  | .top => [("fetch", .fetch), ("check", .check), ("cache", .cache), ("help", .help)]
  | .cache => [("path", .cachePath), ("ls", .cacheList), ("clean", .cacheClean), ("help", .help)]
  | _ => []

def child? (c : Command) (w : String) : Option Command := c.children.lookup w

/-- Options that every command has. -/
def general : List Key := [.logLevel, .logFormat, .help]

def projectKeys : List Key :=
  [.lockfile, .project, .config, .dialect, .allow, .hardened, .lenient]

def keys : Command → List Key
  | .top => .version :: general
  | .fetch => general ++ projectKeys ++ [.output, .registry, .layout, .jobs, .timeout, .report]
  | .check => general ++ projectKeys
  | .cache | .cachePath | .cacheClean => .output :: general
  | .cacheList => .json :: .output :: general
  | .help => []

def keyOfWord? (c : Command) (w : String) : Option Key := c.keys.find? (·.word = w)

def keyOfLetter? (c : Command) (l : Char) : Option Key := c.keys.find? (·.letter? = some l)

/-- A word that is neither option nor value is taken for a command where commands are expected. -/
def stranger (c : Command) : Refusal :=
  if c.children = [] then .unknownArgument else .unknownCommand

end Command

/-- The kinds of words, by their dashes. A single dash alone is plain. -/
inductive Word where
  | separator
  | long (name : String) (value : Option String)
  | letters (cs : List Char)
  | plain (s : String)
  deriving DecidableEq, Repr

def Word.ofString (s : String) : Word :=
  match s.toList with
  | ['-', '-'] => .separator
  | '-' :: '-' :: r =>
    match Text.cut '=' r with
    | some (n, v) => .long (String.ofList n) (some (String.ofList v))
    | none => .long (String.ofList r) none
  | '-' :: c :: r => .letters (c :: r)
  | _ => .plain s

/-- What one command has been given so far. -/
structure Level where
  command : Command
  settings : List Setting
  /-- The option that waits for its value, or whose value waits to be read. -/
  pending : Option (Key × Option String)

namespace Level

def start (c : Command) : Level := ⟨c, [], none⟩

/-- The next plain word is a value. -/
def awaitsValue (l : Level) : Bool :=
  match l.pending with
  | some (_, none) => true
  | _ => false

def has (l : Level) (k : Key) : Bool := l.settings.any (·.key = k)

def add (l : Level) (k : Key) (s : Except Refusal Setting) : Except Refusal Level :=
  if l.has k && !k.repeats then .error .repeated
  else s.map fun s => { l with settings := l.settings ++ [s] }

/-- Reads the value that is waiting, if there is one. -/
def settle (l : Level) : Except Refusal Level :=
  match l.pending with
  | none => .ok l
  | some (_, none) => .error .invalidValue
  | some (k, some v) => { l with pending := none }.add k (k.read v)

/-- An option, with its value if that is attached. -/
def give (l : Level) (k : Key) (value : Option String) : Except Refusal Level :=
  match k.switch?, value with
  | some _, some _ => .error .uselessValue
  | some s, none => do (← l.settle).add k s
  | none, some v => do (← l.settle).add k (k.read v)
  | none, none => l.settle.map ({ · with pending := some (k, none) })

def giveLong (l : Level) (name : String) (value : Option String) : Except Refusal Level :=
  match l.command.keyOfWord? name with
  | some k => l.give k value
  | none => .error .unknownArgument

/-- What follows the letter of an option in the same word; an equals sign may stand between. -/
def attached (cs : List Char) : Option String :=
  match cs with
  | [] => none
  | '=' :: v => some (String.ofList v)
  | v => some (String.ofList v)

/-- A word of letters: switches one after the other, the last letter may take a value. -/
def giveLetters (l : Level) : List Char → Except Refusal Level
  | [] => .ok l
  | c :: r =>
    match l.command.keyOfLetter? c with
    | none => .error .unknownArgument
    | some k =>
      match k.switch? with
      | some _ => do giveLetters (← l.give k none) r
      | none => l.give k (attached r)

def giveValue (l : Level) (v : String) : Level :=
  { l with pending := l.pending.map fun (k, _) => (k, some v) }

/-- The end of the words. Only the cache command cannot stand alone. -/
def finish (l : Level) : Except Refusal (List Level) := do
  let l ← l.settle
  if l.command = .cache then
    throw (if l.settings.isEmpty then .helpInstead else .missingCommand)
  return [l]

/-- Behind the separator nothing is an option, and no command takes other words. -/
def finishPlain (l : Level) : List String → Except Refusal (List Level)
  | [] => l.finish
  | w :: _ =>
    .error (if (l.command.child? w).isSome then .unknownArgument else l.command.stranger)

end Level

/-- Help on a command that is named by its words. -/
def helpOn (c : Command) : List String → Refusal
  | [] => .help
  | w :: ws =>
    match c.child? w with
    | some d => helpOn d ws
    | none => .unknownCommand

def readWords (l : Level) : List String → Except Refusal (List Level)
  | [] => l.finish
  | w :: ws =>
    match if l.awaitsValue then none else l.command.child? w with
    | some .help => .error (helpOn l.command ws)
    | some c => do
      let inner ← readWords (.start c) ws
      return (← l.settle) :: inner
    | none =>
      match Word.ofString w with
      | .separator => l.finishPlain ws
      | .long name value => do readWords (← l.giveLong name value) ws
      | .letters cs => do readWords (← l.giveLetters cs) ws
      | .plain s => if l.awaitsValue then readWords (l.giveValue s) ws else .error l.command.stranger

def levelsOf (words : List String) : Except Refusal (List Level) := readWords (.start .top) words

end OfflineCache.CommandLine
