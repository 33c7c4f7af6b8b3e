import CallGrammar.Chain

namespace CallGrammar

structure RecordedCall where
  term : Term
  args : List String
  deriving DecidableEq, Repr

def RecordedCall.json (r : RecordedCall) : Json := .obj [("term", r.term.json), ("args", .arr (r.args.map .str))]

def recorder : Actions (List RecordedCall) (List String) (List RecordedCall) where
  apply term args calls := (.ok (), calls ++ [⟨term, args⟩])
  build calls := (calls, calls)
  select _ _ _ _ := none

abbrev RecordingChain := Chain (List RecordedCall) (List String) (List RecordedCall)

end CallGrammar
