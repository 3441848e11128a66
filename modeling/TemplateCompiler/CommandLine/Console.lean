import TemplateCompiler.Terminal.LogLine

/-!
# The console

What a command prints. Results go to one stream, log lines and reports of
failures to another. Log records of the lowest level show only if they are
asked for.
-/

namespace TemplateCompiler

/-- What has been printed. -/
structure Console where
  /-- The stream of results. -/
  out : Bytes := []
  /-- The stream of log lines and reports. -/
  err : Bytes := []
  /-- Whether every log record is shown. -/
  verbose : Bool := false
deriving DecidableEq, Repr, Inhabited

namespace Console

def print (c : Console) (text : Bytes) : Console := { c with out := c.out ++ text }

def report (c : Console) (text : Bytes) : Console := { c with err := c.err ++ text }

def shows (c : Console) (r : LogRecord) : Bool := c.verbose || r.level != .debug

def log (c : Console) (records : List LogRecord) : Console :=
  c.report ((records.filter c.shows).flatMap LogRecord.line)

end Console

end TemplateCompiler
