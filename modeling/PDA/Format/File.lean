import PDA.Format.Load

/-!
# Definitions in files

A file may fail to be read before its text can be loaded. What a file holds is given here as the
result of reading it, so that nothing in this module touches a disk.
-/

namespace PDA.Format

/-- Why the text of a file could not be read. -/
inductive ReadError
  /-- There is no such file. -/
  | notFound
  /-- The file is a directory. -/
  | isDirectory
  /-- The path leads through a file as if it were a directory. -/
  | notDirectory
  /-- A name in the path, or the path, is too long. -/
  | nameTooLong
  /-- The bytes of the file are not UTF-8. -/
  | invalidText
  /-- Any other reason, in the words of the system. -/
  | other (message : String)
  deriving DecidableEq

/-- The reason in words. -/
def ReadError.message : ReadError → String
  | notFound => "No such file or directory (os error 2)"
  | isDirectory => "Is a directory (os error 21)"
  | notDirectory => "Not a directory (os error 20)"
  | nameTooLong => "File name too long (os error 36)"
  | invalidText => "stream did not contain valid UTF-8"
  | other message => message

/-- The text that bytes encode. -/
def decodeText (bytes : ByteArray) : Except ReadError String :=
  match String.fromUTF8? bytes with
  | some text => .ok text
  | none => .error .invalidText

/-- Why a definition could not be loaded from a file. -/
inductive LoadError
  /-- The file could not be read. -/
  | unreadable (reason : ReadError)
  /-- The text of the file is no definition. -/
  | faulty (text : String) (faults : List Fault)
  deriving DecidableEq

/-- The reason in words. -/
def LoadError.message : LoadError → String
  | unreadable reason => reason.message
  | faulty _ faults => Fault.messages faults

/-- Load a definition from the bytes of a file, if they could be read. -/
def loadFile (epsilon : String) (file : Except ReadError ByteArray) : Except LoadError Loaded :=
  match file.bind decodeText with
  | .error reason => .error (.unreadable reason)
  | .ok text =>
    match load epsilon text with
    | .ok loaded => .ok loaded
    | .error faults => .error (.faulty text faults)

end PDA.Format
