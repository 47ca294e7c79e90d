/-! Trace messages: what a verbose run tells about itself, step by step. -/

namespace GameScript.Trace

/-- The activities that are traced. -/
inductive Channel where
  | scanning | parsing | reporting | running | prompting | compiling
  deriving Repr, DecidableEq

/-- The name that a trace file shows for an activity. -/
def Channel.name : Channel → String
  | .scanning => "kwento.lexer"
  | .parsing => "kwento.parser"
  | .reporting => "kwento.errors"
  | .running => "kwento.interpreter"
  | .prompting => "kwento.repl"
  | .compiling => "kwento.dsl"

/-- A message of an activity. -/
structure Entry where
  channel : Channel
  message : String
  deriving Repr, DecidableEq

/-- An entry as a line of a trace file. -/
def Entry.line (entry : Entry) : String := entry.channel.name ++ ": " ++ entry.message ++ "\n"

/-- The text of a trace file, a line per entry. -/
def text (entries : List Entry) : String := String.join (entries.map Entry.line)

end GameScript.Trace
