/-!
# Refusals of the file system

* `Errno`: why the system refuses a call, with its number (`Errno.code`) and its text
  (`Errno.text`).
* `Errno.isAbsence`: the refusals that mean that there is nothing at a path.
-/

namespace Recase

/-- Why the system refuses a call. -/
inductive Errno
  | noEntry
  | permissionDenied
  | busy
  | exists
  | notDirectory
  | isDirectory
  | invalidArgument
  | nameTooLong
  | notEmpty
  | tooManyLinks
  deriving Repr, DecidableEq

namespace Errno

/-- The number of the refusal. -/
def code : Errno → Nat
  | noEntry => 2
  | permissionDenied => 13
  | busy => 16
  | .exists => 17
  | notDirectory => 20
  | isDirectory => 21
  | invalidArgument => 22
  | nameTooLong => 36
  | notEmpty => 39
  | tooManyLinks => 40

/-- The refusal in words. -/
def text : Errno → String
  | noEntry => "No such file or directory"
  | permissionDenied => "Permission denied"
  | busy => "Device or resource busy"
  | .exists => "File exists"
  | notDirectory => "Not a directory"
  | isDirectory => "Is a directory"
  | invalidArgument => "Invalid argument"
  | nameTooLong => "File name too long"
  | notEmpty => "Directory not empty"
  | tooManyLinks => "Too many levels of symbolic links"

/-- Whether the refusal of a look-up means that there is nothing at the path: it is missing, it
leads through something that is no directory, or its links never end. -/
def isAbsence : Errno → Bool
  | noEntry => true
  | notDirectory => true
  | tooManyLinks => true
  | _ => false

end Errno

end Recase
