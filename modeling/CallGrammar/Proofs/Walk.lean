import CallGrammar.Command.Run
import CallGrammar.Proofs.Refusal
import Mathlib.Data.List.Forall2

namespace CallGrammar

def CallToken.operation (t : CallToken) : Operation (List String) := .call t.name t.args

def CallToken.script (tokens : List CallToken) (build : Bool) : List (Operation (List String)) :=
  tokens.map operation ++ if build then [.build] else []

open CallToken (operation script)

variable {Object Args Output : Type}

def Answer.error? : Answer Output → Option DispatchError
  | .called (.error e) | .built (.error e) => some e
  | _ => none

namespace Chain

variable {c : Chain Object Args Output} {ops u v : List (Operation Args)} {op : Operation Args} {e : DispatchError}

def firstError? (c : Chain Object Args Output) (ops : List (Operation Args)) : Option DispatchError :=
  (c.answers ops).findSome? Answer.error?

def attempted (c : Chain Object Args Output) : List (Operation Args) → List (Operation Args)
  | [] => []
  | op :: ops => if (c.answer op).error?.isSome then [op] else op :: (c.perform op).1.attempted ops

theorem run_append (c : Chain Object Args Output) (u v : List (Operation Args)) :
    c.run (u ++ v) = (((c.run u).1.run v).1, (c.run u).2 ++ ((c.run u).1.run v).2) := by
  induction u generalizing c with
  | nil => rfl
  | cons op u ih => rw [List.cons_append, run, run, ih, List.append_assoc]

theorem answers_append (c : Chain Object Args Output) (u v : List (Operation Args)) :
    c.answers (u ++ v) = c.answers u ++ (c.run u).1.answers v := by
  induction u generalizing c with
  | nil => rfl
  | cons op u ih => rw [List.cons_append, answers, answers, ih, run, List.cons_append]

theorem firstError?_append (c : Chain Object Args Output) (u v : List (Operation Args)) :
    c.firstError? (u ++ v) = (c.firstError? u).or ((c.run u).1.firstError? v) := by
  rw [firstError?, answers_append, List.findSome?_append, firstError?, firstError?]

theorem firstError?_cons_of_some (h : (c.answer op).error? = some e) (ops : List (Operation Args)) :
    c.firstError? (op :: ops) = some e := by
  rw [firstError?, answers, List.findSome?_cons, h]

theorem firstError?_cons_of_none (h : (c.answer op).error? = none) (ops : List (Operation Args)) :
    c.firstError? (op :: ops) = (c.perform op).1.firstError? ops := by
  rw [firstError?, answers, List.findSome?_cons, h, firstError?]

theorem firstError?_eq_none_iff : c.firstError? ops = none ↔ ∀ a ∈ c.answers ops, a.error? = none :=
  List.findSome?_eq_none_iff

theorem attempted_cons_of_some (h : (c.answer op).error? = some e) (ops : List (Operation Args)) :
    c.attempted (op :: ops) = [op] := by
  rw [attempted, h, Option.isSome_some, if_pos rfl]

theorem attempted_cons_of_none (h : (c.answer op).error? = none) (ops : List (Operation Args)) :
    c.attempted (op :: ops) = op :: (c.perform op).1.attempted ops := by
  rw [attempted, h, Option.isSome_none, if_neg Bool.false_ne_true]

theorem attempted_append_of_none (h : c.firstError? u = none) (v : List (Operation Args)) :
    c.attempted (u ++ v) = u ++ (c.run u).1.attempted v := by
  induction u generalizing c with
  | nil => rfl
  | cons op u ih =>
    have hop : (c.answer op).error? = none := firstError?_eq_none_iff.mp h _ List.mem_cons_self
    rw [firstError?_cons_of_none hop] at h
    rw [List.cons_append, attempted_cons_of_none hop, ih h, run, List.cons_append]

theorem attempted_of_none (h : c.firstError? ops = none) : c.attempted ops = ops := by
  have happend := attempted_append_of_none h []
  rwa [List.append_nil, attempted, List.append_nil] at happend

theorem attempted_append_of_some (h : c.firstError? u = some e) (v : List (Operation Args)) :
    c.attempted (u ++ v) = c.attempted u := by
  induction u generalizing c with
  | nil => cases h
  | cons op u ih =>
    cases hop : (c.answer op).error? with
    | some _ => rw [List.cons_append, attempted_cons_of_some hop, attempted_cons_of_some hop]
    | none =>
      rw [firstError?_cons_of_none hop] at h
      rw [List.cons_append, attempted_cons_of_none hop, attempted_cons_of_none hop, ih h]

@[simp] theorem run_singleton (c : Chain Object Args Output) (op : Operation Args) : c.run [op] = c.perform op := by
  rw [run, run, List.append_nil]

@[simp] theorem firstError?_singleton (c : Chain Object Args Output) (op : Operation Args) :
    c.firstError? [op] = (c.answer op).error? := by
  cases h : (c.answer op).error? with
  | some e => exact firstError?_cons_of_some h []
  | none => exact firstError?_cons_of_none h []

@[simp] theorem attempted_singleton (c : Chain Object Args Output) (op : Operation Args) : c.attempted [op] = [op] := by
  rw [attempted, attempted, ite_self]

theorem actions_perform (c : Chain Object Args Output) (op : Operation Args) : (c.perform op).1.actions = c.actions := by
  obtain ⟨_, _, hperform, _⟩ := c.exists_perform_eq op
  rw [hperform]

theorem actions_run (c : Chain Object Args Output) (ops : List (Operation Args)) : (c.run ops).1.actions = c.actions := by
  induction ops generalizing c with
  | nil => rfl
  | cons op ops ih => rw [run, ih, actions_perform]

end Chain

namespace RecordingChain

variable {c : RecordingChain}

theorem callAll_eq (c : RecordingChain) (ts : List CallToken) : c.callAll ts =
    ⟨(c.firstError? (ts.map operation)).elim (.ok ()) .error, (c.run (c.attempted (ts.map operation))).1,
      (c.run (c.attempted (ts.map operation))).2⟩ := by
  induction ts generalizing c with
  | nil => rfl
  | cons t ts ih =>
    rw [List.map_cons, callAll]
    cases hresult : (c.call t.name t.args).result with
    | error e =>
      have hop : (c.answer t.operation).error? = some e := by rw [operation, Chain.answer, hresult, Answer.error?]
      rw [Chain.firstError?_cons_of_some hop, Chain.attempted_cons_of_some hop, Chain.run, Chain.run, List.append_nil]
      simp only
      rw [Option.elim_some, ← hresult]
      rfl
    | ok _ =>
      have hop : (c.answer t.operation).error? = none := by
        rw [operation, Chain.answer, hresult]
        rfl
      rw [Chain.firstError?_cons_of_none hop, Chain.attempted_cons_of_none hop, Chain.run]
      simp only
      rw [ih]
      rfl

theorem build_eq (hc : c.actions = recorder) : c.build =
    ⟨(c.answer .build).error?.elim (.ok (c.perform .build).1.object) .error, (c.perform .build).1,
      (c.perform .build).2⟩ := by
  rw [Chain.answer, Chain.perform]
  rcases Chain.build_cases c with ⟨_, hbuild⟩ | ⟨_, hbuild⟩ <;> rw [hbuild]
  · rw [hc]
    rfl
  · rfl

theorem walk_eq (hc : c.actions = recorder) (ts : List CallToken) (build : Bool) : c.walk ts build =
    ⟨(c.firstError? (script ts build)).elim (.ok (c.run (script ts build)).1.object) .error,
      (c.run (c.attempted (script ts build))).1, (c.run (c.attempted (script ts build))).2⟩ := by
  rw [walk, callAll_eq, script, Chain.firstError?_append]
  cases herror : c.firstError? (ts.map operation) with
  | some e =>
    rw [Chain.attempted_append_of_some herror]
    rfl
  | none =>
    rw [Chain.attempted_append_of_none herror, Chain.attempted_of_none herror]
    cases build with
    | false =>
      simp only [Option.elim_none, Bool.false_eq_true, if_false, List.append_nil, Option.none_or, Chain.attempted]
      rfl
    | true =>
      simp only [Option.elim_none, if_true, Option.none_or, Chain.run_append, Chain.run_singleton,
        Chain.firstError?_singleton, Chain.attempted_singleton]
      rw [build_eq ((Chain.actions_run c _).trans hc)]

theorem perform_build (hc : c.actions = recorder) : (c.perform .build).1 = c := by
  rw [Chain.perform]
  rcases Chain.build_cases c with ⟨_, hbuild⟩ | ⟨_, hbuild⟩ <;> rw [hbuild]
  rw [hc]
  obtain ⟨dfa, terms, actions, calls, state⟩ := c
  obtain rfl : actions = recorder := hc
  rfl

theorem run_script (hc : c.actions = recorder) (ts : List CallToken) (build : Bool) :
    (c.run (script ts build)).1 = (c.run (ts.map operation)).1 := by
  rw [script, Chain.run_append]
  cases build with
  | false => rfl
  | true =>
    rw [if_pos rfl, Chain.run_singleton]
    exact perform_build ((Chain.actions_run c _).trans hc)

theorem error?_answer_build (c : RecordingChain) : (c.answer .build).error? = none ↔ c.isFinal = true := by
  rw [Chain.answer]
  rcases Chain.build_cases c with ⟨hfinal, hbuild⟩ | ⟨hfinal, hbuild⟩
  · rw [hbuild, hfinal]
    exact iff_of_true rfl rfl
  · rw [hbuild, hfinal]
    exact iff_of_false (Option.some_ne_none _) Bool.false_ne_true

theorem firstError?_script_eq_none_iff (c : RecordingChain) (ts : List CallToken) (build : Bool) :
    c.firstError? (script ts build) = none ↔
      c.firstError? (ts.map operation) = none ∧ (build = true → (c.run (ts.map operation)).1.isFinal = true) := by
  rw [script, Chain.firstError?_append, Option.or_eq_none_iff]
  cases build with
  | false => simp [Chain.firstError?, Chain.answers]
  | true => simp [error?_answer_build]

theorem call_of_ok (hc : c.actions = recorder) {t : CallToken} (h : (c.answer t.operation).error? = none) :
    ∃ term j, (term, j) ∈ c.moves ∧ (term.callable = t.name ∨ term.name = t.name) ∧
      (c.perform t.operation).1 = { c with object := c.object ++ [⟨term, t.args⟩], state := j } := by
  rw [operation, Chain.answer] at h
  rw [operation, Chain.perform]
  rcases Chain.call_cases c t.name t.args with ⟨e, _, hcall⟩ | ⟨term, j, message, object, _, _, hcall⟩ |
    ⟨term, j, object, hresolve, happly, hcall⟩ <;> rw [hcall] at h ⊢
  · cases h
  · cases h
  · rw [hc] at happly
    obtain ⟨hmove, hname⟩ := Chain.mem_candidates (Chain.mem_candidates_of_resolve hresolve)
    exact ⟨term, j, hmove, hname, by rw [← (Prod.mk.inj happly).2]⟩

theorem isRefusal_answer (hc : c.actions = recorder) (op : Operation (List String)) :
    (c.answer op).isRefusal = (c.answer op).error?.isSome := by
  cases op with
  | call name args =>
    rw [Chain.answer]
    rcases Chain.call_cases c name args with ⟨e, hresolve, hcall⟩ | ⟨t, j, message, object, _, happly, _⟩ |
      ⟨t, j, object, _, _, hcall⟩
    · rw [hcall]
      exact Chain.isRefusal_of_resolve hresolve
    · rw [hc] at happly
      cases happly
    · rw [hcall]
      rfl
  | build =>
    rw [Chain.answer]
    rcases Chain.build_cases c with ⟨_, hbuild⟩ | ⟨_, hbuild⟩ <;> rw [hbuild] <;> rfl
  | watch => rfl

theorem isRefusal_of_mem_answers (hc : c.actions = recorder) {ops : List (Operation (List String))}
    {a : Answer (List RecordedCall)} (ha : a ∈ c.answers ops) : a.isRefusal = a.error?.isSome := by
  induction ops generalizing c with
  | nil => exact absurd ha List.not_mem_nil
  | cons op ops ih =>
    rcases List.mem_cons.mp ha with rfl | ha
    · exact isRefusal_answer hc op
    · exact ih ((Chain.actions_perform c op).trans hc) ha

end RecordingChain

def RecordedCall.Answers (call : RecordedCall) (t : CallToken) : Prop :=
  call.args = t.args ∧ (call.term.callable = t.name ∨ call.term.name = t.name)

structure Recorded (g : Grammar) (ts : List CallToken) (c : RecordingChain) : Prop where
  follows : Follows g recorder (c.object.map (·.term)) c
  answered : List.Forall₂ RecordedCall.Answers c.object ts

namespace Recorded

variable {g : Grammar} {ts us : List CallToken} {t : CallToken} {c : RecordingChain}

theorem start (g : Grammar) : Recorded g [] g.recordingChain := ⟨.start g recorder [], .nil⟩

theorem call (h : Recorded g ts c) (hok : (c.answer t.operation).error? = none) :
    Recorded g (ts ++ [t]) (c.perform t.operation).1 := by
  obtain ⟨term, j, hmove, hname, hperform⟩ := RecordingChain.call_of_ok h.follows.actions_eq hok
  rw [hperform]
  refine ⟨?_, List.rel_append h.answered (.cons ⟨rfl, hname⟩ .nil)⟩
  rw [List.map_append]
  exact h.follows.move hmove

theorem run (h : Recorded g ts c) (hok : c.firstError? (us.map operation) = none) :
    Recorded g (ts ++ us) (c.run (us.map operation)).1 := by
  induction us generalizing ts c with
  | nil => simpa [Chain.run] using h
  | cons u us ih =>
    have hop : (c.answer u.operation).error? = none := Chain.firstError?_eq_none_iff.mp hok _ List.mem_cons_self
    rw [List.map_cons, Chain.firstError?_cons_of_none hop] at hok
    rw [List.append_cons, List.map_cons, Chain.run]
    exact ih (h.call hop) hok

end Recorded

end CallGrammar
