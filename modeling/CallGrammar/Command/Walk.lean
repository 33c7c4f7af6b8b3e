import CallGrammar.Chain.Recorder
import CallGrammar.Command.CallToken

namespace CallGrammar

abbrev WalkReply := Reply (List RecordedCall) (List String) (List RecordedCall)

namespace RecordingChain

def callAll (c : RecordingChain) : List CallToken → WalkReply Unit
  | [] => ⟨.ok (), c, []⟩
  | t :: ts =>
      let first := c.call t.name t.args
      match first.result with
      | .error _ => first
      | .ok _ =>
          let rest := callAll first.chain ts
          { rest with events := first.events ++ rest.events }

def walk (c : RecordingChain) (tokens : List CallToken) (build : Bool) : WalkReply (List RecordedCall) :=
  let calls := c.callAll tokens
  match calls.result with
  | .error e => ⟨.error e, calls.chain, calls.events⟩
  | .ok _ =>
      if build then
        let last := calls.chain.build
        { last with events := calls.events ++ last.events }
      else ⟨.ok calls.chain.object, calls.chain, calls.events⟩

end RecordingChain

end CallGrammar
