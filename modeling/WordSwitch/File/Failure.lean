/-!
# Failures of files

The causes for which a file cannot be opened, read or created.
-/

namespace WordSwitch

/-- Why a file cannot be used. -/
inductive FileFailure where
  /-- Nothing has that name. -/
  | notFound
  /-- Something that is no directory is used as one. -/
  | notADirectory
  /-- A directory is used as a file. -/
  | isADirectory
  /-- Something else has that name already. -/
  | alreadyExists
  /-- A name or the path as a whole is too long. -/
  | nameTooLong
  /-- The path has a zero character. -/
  | zeroInName
  /-- The data ends too early. -/
  | unexpectedEnd
  /-- The data does not start with a valid member header. -/
  | invalidHeader
  /-- A text in a member header is too long. -/
  | headerTooLong
  /-- The compressed data ends too early. -/
  | incompleteData
  /-- The compressed data is damaged. -/
  | corruptData
  /-- The data does not have the recorded checksum or size. -/
  | checksumMismatch
  /-- Something else, as the system describes it. -/
  | other (description : String)
deriving DecidableEq, Repr

namespace FileFailure

/-- The text of a failure. -/
def message : FileFailure → String
  | notFound => "No such file or directory (os error 2)"
  | notADirectory => "Not a directory (os error 20)"
  | isADirectory => "Is a directory (os error 21)"
  | alreadyExists => "File exists (os error 17)"
  | nameTooLong => "File name too long (os error 36)"
  | zeroInName => "file name contained an unexpected NUL byte"
  | unexpectedEnd => "unexpected end of file"
  | invalidHeader => "invalid gzip header"
  | headerTooLong => "gzip header field too long"
  | incompleteData => "incomplete deflate stream"
  | corruptData => "corrupt deflate stream"
  | checksumMismatch => "corrupt gzip stream does not have a matching checksum"
  | other description => description

end FileFailure

end WordSwitch
