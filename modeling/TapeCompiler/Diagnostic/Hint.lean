/-!
# Hints

A message may earn one line of advice. The advice is found by its phrase: the first phrase of the
topic that occurs anywhere in the message, letter case aside, decides.
-/
namespace TapeCompiler

/-- The stages whose messages have hints. -/
inductive Topic where
  | lexical
  | parse
  | assemble
  deriving DecidableEq, Repr

/-- The phrases of a topic with their advice, in the order in which they are looked for. -/
def Topic.advice : Topic → List (String × String)
  | lexical =>
    [("out of range", "Literals are single cells and must be between 0 and 255."),
     ("unexpected character",
      "Only identifiers, numbers, =, ==, !=, &&, braces and parentheses are allowed.")]
  | parse =>
    [("reserved word",
      "if, else, while, move_right, move_left, input and output cannot be used as variable names."),
     ("expected '\x7d'", "Check for a missing closing \"\x7d\" at the end of a block."),
     ("expected statement",
      "Statements are: x = N, input ( x ), output ( x ), move_right, move_left, if, while.")]
  | assemble =>
    [("unknown operation",
      "Known mnemonics: #define add sub set rs ls loop end copy read write."),
     ("unresolved", "Define the name first with \"#define <name> <value>\".")]

/-- Whether `phrase` is a contiguous part of `text`. -/
def occursIn (phrase : List Char) : List Char → Bool
  | [] => phrase.isEmpty
  | c :: rest => phrase.isPrefixOf (c :: rest) || occursIn phrase rest

theorem occursIn_iff {phrase text : List Char} : occursIn phrase text = true ↔ phrase <:+: text := by
  induction text with
  | nil => simp [occursIn]
  | cons c rest ih => simp [occursIn, ih, List.infix_cons_iff]

/-- A letter in lower case. Beyond ASCII only the Kelvin sign has an ASCII letter as its lower
case. -/
def lowerLetter (c : Char) : Char := if c = '\u212a' then 'k' else c.toLower

/-- The hint that a message earns (`_hint_for`). -/
def hintFor (topic : Topic) (message : String) : Option String :=
  (topic.advice.find? fun entry =>
    occursIn entry.1.toList (message.toList.map lowerLetter)).map Prod.snd

end TapeCompiler
