/-!
# Why a file operation failed

The causes that file operations of this library meet: the file system's own, contents that are not
what they should be, and a lock that stays taken.
-/
namespace NestedStyles.Storage

inductive Cause where
  | notFound
  | alreadyExists
  | invalidData
  | timedOut
  | isADirectory
  | notADirectory
  deriving DecidableEq, Repr

def Cause.message : Cause → String
  | .notFound => "no such file or directory"
  | .alreadyExists => "file already exists"
  | .invalidData => "contents are not valid"
  | .timedOut => "timed out waiting for the lock held by another build"
  | .isADirectory => "is a directory"
  | .notADirectory => "not a directory"

end NestedStyles.Storage
