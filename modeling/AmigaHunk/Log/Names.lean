/-! The names of log levels and log formats. Letters of either case are the same. -/
namespace AmigaHunk

inductive LogLevel where
  | error
  | warn
  | info
  | debug
  | trace
  deriving DecidableEq, Repr

inductive LogFormat where
  | pretty
  | json
  deriving DecidableEq, Repr

namespace LogLevel

def label : LogLevel → String
  | error => "error"
  | warn => "warn"
  | info => "info"
  | debug => "debug"
  | trace => "trace"

/-- How much is logged up to a level. -/
def rank : LogLevel → Nat
  | error => 1
  | warn => 2
  | info => 3
  | debug => 4
  | trace => 5

def parse? (s : String) : Option LogLevel :=
  match s.toLower with
  | "error" | "err" => some error
  | "warn" | "warning" => some warn
  | "info" => some info
  | "debug" | "dbg" => some debug
  | "trace" => some trace
  | _ => none

def parseMessage (s : String) : String :=
  s!"Unknown log level: {s}. Use 'error', 'warn', 'info', 'debug', or 'trace'"

end LogLevel

namespace LogFormat

def parse? (s : String) : Option LogFormat :=
  match s.toLower with
  | "pretty" | "dev" | "development" => some pretty
  | "json" | "prod" | "production" => some json
  | _ => none

def parseMessage (s : String) : String := s!"Unknown log format: {s}. Use 'pretty' or 'json'"

end LogFormat
end AmigaHunk
