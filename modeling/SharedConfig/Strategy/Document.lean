import SharedConfig.Record.FromText
import SharedConfig.Strategy

/-!
# SharedConfig.Strategy.Document

The side document with the strategies: a mapping `patchStrategy` from paths to words, in a mapping
`configMetadata`.
-/

namespace SharedConfig

/-- Why a text is no strategy, or no table of strategies. -/
inductive StrategyError where
  /-- The document cannot be read. -/
  | unreadable (cause : DecodeError)
  /-- The word is none of the two. -/
  | invalidStrategy (word : String)
  /-- The word for a path is none of the two. -/
  | unknownStrategy (path word : String)
  deriving DecidableEq, Repr

def StrategyError.message : StrategyError → String
  | .unreadable cause => "invalid patch strategy document: " ++ cause.message
  | .invalidStrategy word =>
    "invalid patch strategy '" ++ word ++ "', expected merge or replace"
  | .unknownStrategy path word => "unknown patch strategy '" ++ word ++ "' for '" ++ path ++ "'"

def PatchStrategy.ofText (s : String) : Except StrategyError PatchStrategy :=
  match PatchStrategy.ofText? s with
  | some strategy => .ok strategy
  | none => .error (.invalidStrategy s)

namespace StrategyTable

/-- The table of some paths with words; the first word that is none of the two is an error. -/
def ofWords : List (String × String) → Except StrategyError StrategyTable
  | [] => .ok empty
  | (path, word) :: rest =>
    match PatchStrategy.ofText? word with
    | none => .error (.unknownStrategy path word)
    | some s =>
      match ofWords rest with
      | .error e => .error e
      | .ok t => .ok (t.insert path s)

variable {α : Type} {m : Type → Type} [Monad m] [MonadExceptOf DecodeError m] [Source α m]

def readWords : α → m (Dictionary String) :=
  readRecord "ConfigMetadata" [] [] fun _ name x =>
    if name = "patchStrategy" then some (readDictionary readText x) else none

def readDocument : α → m (Option (Dictionary String)) :=
  readRecord "MetadataDocument" none [] fun _ name x =>
    if name = "configMetadata" then some (readOption readWords x) else none

/-- The table of a side document; what the document leaves out is empty. -/
def ofText (text : String) : Except StrategyError StrategyTable :=
  if isBlankText text then .ok empty
  else
    match readFromText (readOption readDocument) text with
    | .error e => .error (.unreadable e)
    | .ok words => ofWords ((words.getD none).getD [])

end StrategyTable

end SharedConfig
