import ChunkedSet.RunList.Basic

/-!
# Errors of reading and writing

The reasons why bytes are refused, and the text of each.
-/

namespace ChunkedSet

inductive DecodeError
  | endOfInput
  | unknownCookie (cookie : Nat)
  | tooManyEntries (count : Nat)
  | unsortedKeys (index : Nat)
  | zeroRuns (key : Nat)
  | tooManyRuns (key count : Nat)
  | runOverflow (key : Nat)
  | invalidRuns (key : Nat) (fault : RunFault)
  | invalidArray (key : Nat) (fault : OrderFault)
  | sizeMismatch (key expected actual : Nat)
  /-- The input declares more bytes than it has. -/
  | truncated (needed remaining : Nat)
deriving DecidableEq

def OrderFault.message : OrderFault → String
  | duplicate i => "duplicate element found at index: " ++ toString i
  | outOfOrder i => "element out of order at index: " ++ toString i

def RunFault.message : RunFault → String
  | reversed i => "run ends before it starts at run: " ++ toString i
  | notMaximal i => "run overlaps or touches the previous run at run: " ++ toString i

def DecodeError.message : DecodeError → String
  | endOfInput => "failed to fill whole buffer"
  | unknownCookie cookie => "unknown cookie value " ++ toString cookie
  | tooManyEntries count =>
    toString count ++ " containers declared but at most 65536 are supported"
  | unsortedKeys index => "container keys are not sorted at container " ++ toString index
  | zeroRuns key => "run container " ++ toString key ++ " has zero runs"
  | tooManyRuns key count =>
    "run container " ++ toString key ++ " declares " ++ toString count ++
      " runs but at most 32768 are possible"
  | runOverflow key => "a run of container " ++ toString key ++ " overflows past 65535"
  | invalidRuns key fault => "invalid runs in container " ++ toString key ++ ": " ++ fault.message
  | invalidArray key fault =>
    "invalid array in container " ++ toString key ++ ": " ++ fault.message
  | sizeMismatch key expected actual =>
    "container " ++ toString key ++ " holds " ++ toString actual ++ " values but declares " ++
      toString expected
  | truncated needed remaining =>
    toString needed ++ " bytes are declared but only " ++ toString remaining ++ " remain"

inductive WriteError
  | bufferFull
deriving DecidableEq

def WriteError.message : WriteError → String
  | bufferFull => "failed to write whole buffer"

end ChunkedSet
