import SharedConfig.Merge
import SharedConfig.Record.Kind
import SharedConfig.Strategy.Document

/-!
# SharedConfig.Store.Error

Why operations on the store fail.
-/

namespace SharedConfig

open Yaml

/-- Why a file cannot be read or put in place. -/
inductive FileError where
  | missing
  | present
  | notDirectory
  | isDirectory
  /-- A place that is not named cannot be taken by something else. -/
  | busy
  | nameTooLong
  /-- A path holds the character zero. -/
  | zeroInPath
  /-- What the file holds is no text. -/
  | notText
  deriving DecidableEq, Repr

def FileError.message : FileError → String
  | .missing => "No such file or directory (os error 2)"
  | .present => "File exists (os error 17)"
  | .notDirectory => "Not a directory (os error 20)"
  | .isDirectory => "Is a directory (os error 21)"
  | .busy => "Device or resource busy (os error 16)"
  | .nameTooLong => "File name too long (os error 36)"
  | .zeroInPath => "file name contained an unexpected NUL byte"
  | .notText => "stream did not contain valid UTF-8"

/-- What is wrong with an argument. -/
inductive ArgumentError where
  | empty (what : String)
  | unnamed (cause : MergeError)
  /-- What a caller has to say against it. -/
  | refused (why : String)
  deriving DecidableEq, Repr

def ArgumentError.message : ArgumentError → String
  | .empty what => what ++ " cannot be empty"
  | .unnamed cause => cause.message
  | .refused why => why

/-- What is wrong with a document. -/
inductive ShapeError where
  | unreadable (path : String) (cause : NodeError)
  | unprintable (cause : PrintError)
  | strategies (cause : StrategyError)
  /-- Something else is where a collection should be. -/
  | notSequence (path : String)
  /-- Something else is where a mapping with a scalar should be. -/
  | blocked (path : String)
  deriving DecidableEq, Repr

def ShapeError.message : ShapeError → String
  | .unreadable path cause => path ++ ": " ++ cause.message
  | .unprintable cause => (NodeError.unwritable cause).message
  | .strategies cause => cause.message
  | .notSequence path => "'" ++ path ++ "' is not a sequence"
  | .blocked path => "cannot write scalar at '" ++ path ++ "'"

/-- Why an operation on the store fails. -/
inductive StoreError where
  | invalidArgument (cause : ArgumentError)
  | notFound (what name : String)
  | malformed (cause : ShapeError)
  | io (path : String) (cause : FileError)
  | lock (path : String) (cause : FileError)
  /-- Someone else has the lock. -/
  | lockTimeout (path : String)
  | codec (cause : CodecError)
  deriving DecidableEq, Repr

namespace StoreError

def message : StoreError → String
  | invalidArgument cause => "invalid argument: " ++ cause.message
  | notFound what name => what ++ " '" ++ name ++ "' not found"
  | malformed cause => "malformed configuration: " ++ cause.message
  | io path cause => "I/O error on " ++ path ++ ": " ++ cause.message
  | lock path cause => "failed to lock " ++ path ++ ": " ++ cause.message
  | lockTimeout path => "timed out waiting for lock " ++ path
  | codec cause => "codec error: " ++ cause.message

def isNotFound : StoreError → Bool
  | notFound .. => true
  | _ => false

def isInvalidArgument : StoreError → Bool
  | invalidArgument _ => true
  | _ => false

def isLockFailure : StoreError → Bool
  | lock .. => true
  | lockTimeout _ => true
  | _ => false

end StoreError

def requireNonEmpty (what s : String) : Except StoreError Unit :=
  if s = "" then .error (.invalidArgument (.empty what)) else .ok ()

end SharedConfig
