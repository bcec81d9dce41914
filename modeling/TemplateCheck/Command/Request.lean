/-!
# Requests

* `Job`       the work: check files, print tokens, or list keys
* `Request`   a job and how much is to be logged
-/

namespace TemplateCheck.Command

inductive Job where
  /-- look for errors in files -/
  | check (paths : List String)
  /-- print the tokens of a file, with content as it is or with escapes resolved -/
  | tokens (path : String) (unescape : Bool)
  /-- list the keys of a file -/
  | keys (path : String)
  deriving DecidableEq, Repr

structure Request where
  /-- how often it was asked for more to be logged -/
  verbosity : Nat
  job : Job
  deriving DecidableEq, Repr

end TemplateCheck.Command
