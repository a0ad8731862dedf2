/-! # The log — what the library tells about its work

    Every record is written to a channel below the library's own. -/

namespace Stencil

/-- How important a record is. -/
inductive LogLevel where
  | debug
deriving Repr, DecidableEq

/-- The name of a level in records. -/
def LogLevel.name : LogLevel → String
  | debug => "DEBUG"

/-- A line of the log. -/
structure LogRecord where
  channel : String
  level : LogLevel
  message : String
deriving Repr, DecidableEq

/-- The channel that all others are below. -/
def rootChannel : String := "jadeite"

/-- The full name of a channel: names that are not below the root channel are put there. -/
def channelName (name : String) : String :=
  if name = rootChannel || (rootChannel ++ ".").toList.isPrefixOf name.toList then name
  else rootChannel ++ "." ++ name

end Stencil
