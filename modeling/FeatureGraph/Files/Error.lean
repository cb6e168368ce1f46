-- What can go wrong while bytes are read or written.

namespace FeatureGraph

/-- A failure of a file, a folder or a stream of bytes. -/
inductive IoError where
  | notFound
  | alreadyExists
  | notFolder
  | isFolder
  | nameTooLong
  /-- A file name with a NUL in it. -/
  | nulInName
  | invalidArgument
  /-- The bytes ended before as many were read as were needed. -/
  | tooShort
  /-- A line that is not UTF-8. -/
  | notText
  /-- A failure with words of its own. -/
  | other (text : String)
deriving DecidableEq, Repr, Inhabited

/-- The words of a failure. -/
def IoError.message : IoError → String
  | .notFound => "No such file or directory (os error 2)"
  | .alreadyExists => "File exists (os error 17)"
  | .notFolder => "Not a directory (os error 20)"
  | .isFolder => "Is a directory (os error 21)"
  | .nameTooLong => "File name too long (os error 36)"
  | .invalidArgument => "Invalid argument (os error 22)"
  | .nulInName => "file name contained an unexpected NUL byte"
  | .tooShort => "failed to fill whole buffer"
  | .notText => "stream did not contain valid UTF-8"
  | .other text => text

end FeatureGraph
