/-!
# Log records

* `Level`    how grave a record is
* `Record`   what is handed to a logger
* `Logger`   what becomes of a record
-/

namespace TemplateCheck.Log

inductive Level where
  | error
  | warn
  | info
  | debug
  | trace
  deriving DecidableEq, Repr

structure Record where
  level : Level
  /-- the part of the program that speaks -/
  target : String
  message : String
  deriving DecidableEq, Repr

/-- A logger.  The program hands its records over in order; which of them are written, and how, is
not for the program to say. -/
structure Logger where
  /-- the record is written -/
  shows : Record → Bool
  /-- what is written for it, the end of the line included; where it is marked with the time, the
  mark is one and the same for all records -/
  line : Record → String

end TemplateCheck.Log
