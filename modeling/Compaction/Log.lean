/-!
# Log records

A record is a level and a text; its line is the level's name, a space and the text.
-/

namespace Compaction

/-- How much detail a record gives. -/
inductive LogLevel where
  | trace
  | debug
  | info
  deriving DecidableEq, Repr

/-- The level's name as it opens a line. -/
def LogLevel.label : LogLevel → String
  | trace => "TRACE"
  | debug => "DEBUG"
  | info => "INFO"

/-- One entry of the log. -/
structure LogRecord where
  level : LogLevel
  text : String
  deriving DecidableEq, Repr

/-- The record as it is printed. -/
def LogRecord.line (entry : LogRecord) : String := s!"{entry.level.label} {entry.text}"

end Compaction
