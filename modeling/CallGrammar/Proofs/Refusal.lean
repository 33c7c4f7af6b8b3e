import CallGrammar.Proofs.Chain

namespace CallGrammar

inductive Answer (Output : Type) where
  | called (result : Except DispatchError Unit)
  | built (result : Except DispatchError Output)
  | watched

inductive Act (Args : Type) where
  | apply (term : Term) (args : Args)
  | build

def DispatchError.isRefusal : DispatchError → Bool
  | .notAllowed .. | .premature _ | .ambiguous .. => true
  | .failed .. => false

variable {Object Args Output : Type}

def Answer.isRefusal : Answer Output → Bool
  | .called (.error e) | .built (.error e) => e.isRefusal
  | _ => false

def Actions.logged (a : Actions Object Args Output) : Actions (Object × List (Act Args)) Args Output where
  apply term args o := ((a.apply term args o.1).1, (a.apply term args o.1).2, o.2 ++ [.apply term args])
  build o := ((a.build o.1).1, (a.build o.1).2, o.2 ++ [.build])
  select name candidates args o := a.select name candidates args o.1

def Chain.logged (c : Chain Object Args Output) (log : List (Act Args)) : Chain (Object × List (Act Args)) Args Output :=
  ⟨c.dfa, c.terms, c.actions.logged, (c.object, log), c.state⟩

def Reply.logged {Value : Type} (r : Reply Object Args Output Value) (log : List (Act Args)) :
    Reply (Object × List (Act Args)) Args Output Value :=
  ⟨r.result, r.chain.logged log, r.events⟩

namespace Chain

def answer (c : Chain Object Args Output) : Operation Args → Answer Output
  | .call name args => .called (c.call name args).result
  | .build => .built c.build.result
  | .watch => .watched

def answers (c : Chain Object Args Output) : List (Operation Args) → List (Answer Output)
  | [] => []
  | op :: ops => c.answer op :: (c.perform op).1.answers ops

def heeded (c : Chain Object Args Output) : List (Operation Args) → List (Operation Args)
  | [] => []
  | op :: ops =>
      if (c.answer op).isRefusal then (c.perform op).1.heeded ops else op :: (c.perform op).1.heeded ops

inductive Invokes (c : Chain Object Args Output) : Operation Args → List (Act Args) → Prop where
  | refused {op : Operation Args} : (c.answer op).isRefusal = true → Invokes c op []
  | applied {name : String} {args : Args} {t : Term} {j : StateId} : (c.answer (.call name args)).isRefusal = false →
      c.resolve name args = .ok (t, j) → Invokes c (.call name args) [.apply t args]
  | built {output : Output} : c.isFinal = true → c.answer .build = .built (.ok output) → Invokes c .build [.build]
  | watched : Invokes c .watch []

inductive InvokesAll : Chain Object Args Output → List (Operation Args) → List (Act Args) → Prop where
  | nil (c : Chain Object Args Output) : InvokesAll c [] []
  | cons {c : Chain Object Args Output} {op : Operation Args} {ops : List (Operation Args)} {u v : List (Act Args)} :
      c.Invokes op u → InvokesAll (c.perform op).1 ops v → InvokesAll c (op :: ops) (u ++ v)

structure Guarded (c : Chain Object Args Output) : Prop where
  call {name : String} {args : Args} {e : DispatchError} : (c.call name args).result = .error e →
    e = .notAllowed name c.state c.expected ∧ (c.call name args).chain = c ∨
    e = .ambiguous name c.state ((c.candidates name).map (·.1)) ∧ 2 ≤ (c.candidates name).length ∧
      (c.call name args).chain = c ∨
    ∃ t j message object, e = .failed name message ∧ c.resolve name args = .ok (t, j) ∧
      c.actions.apply t args c.object = (.error message, object) ∧ (c.call name args).chain = { c with object }
  build {e : DispatchError} : c.build.result = .error e → e = .premature c.state ∧ c.build.chain = c ∧ c.isFinal = false

variable {c : Chain Object Args Output} {name : String} {args : Args} {e : DispatchError} {op : Operation Args}
  {log : List (Act Args)}

theorem resolve_eq_error (h : c.resolve name args = .error e) :
    e = .notAllowed name c.state c.expected ∨
    e = .ambiguous name c.state ((c.candidates name).map (·.1)) ∧ 2 ≤ (c.candidates name).length := by
  rw [resolve] at h
  split at h
  · exact .inl (Except.error.inj h).symm
  · cases h
  · rename_i hnone hone
    split at h
    · cases h
    · refine .inr ⟨(Except.error.inj h).symm, ?_⟩
      rcases hcandidates : c.candidates name with _ | ⟨move, _ | ⟨other, moves⟩⟩
      · exact absurd hcandidates hnone
      · exact absurd hcandidates (hone move)
      · simp

theorem isRefusal_of_resolve (h : c.resolve name args = .error e) : e.isRefusal = true := by
  rcases resolve_eq_error h with rfl | ⟨rfl, _⟩ <;> rfl

theorem guarded (c : Chain Object Args Output) : c.Guarded where
  call {name args e} he := by
    rcases call_cases c name args with ⟨e', hresolve, hcall⟩ | ⟨t, j, message, object, hresolve, happly, hcall⟩ |
      ⟨t, j, object, _, _, hcall⟩ <;> rw [hcall] at he ⊢
    · obtain rfl := Except.error.inj he
      rcases resolve_eq_error hresolve with h | ⟨h, hlength⟩
      · exact .inl ⟨h, rfl⟩
      · exact .inr (.inl ⟨h, hlength, rfl⟩)
    · exact .inr (.inr ⟨t, j, message, object, (Except.error.inj he).symm, hresolve, happly, rfl⟩)
    · cases he
  build {e} he := by
    rcases build_cases c with ⟨_, hbuild⟩ | ⟨hfinal, hbuild⟩ <;> rw [hbuild] at he ⊢
    · cases he
    · exact ⟨(Except.error.inj he).symm, rfl, hfinal⟩

theorem perform_of_isRefusal (h : (c.answer op).isRefusal = true) : (c.perform op).1 = c := by
  cases op with
  | call name args =>
    rw [answer] at h
    rw [perform]
    rcases call_cases c name args with ⟨e, _, hcall⟩ | ⟨t, j, message, object, _, _, hcall⟩ |
      ⟨t, j, object, _, _, hcall⟩ <;> rw [hcall] at h ⊢
    · cases h
    · cases h
  | build =>
    rw [answer] at h
    rw [perform]
    rcases build_cases c with ⟨_, hbuild⟩ | ⟨_, hbuild⟩ <;> rw [hbuild] at h ⊢
    cases h
  | watch => rfl

theorem heeded_cons_of_isRefusal (h : (c.answer op).isRefusal = true) (ops : List (Operation Args)) :
    c.heeded (op :: ops) = c.heeded ops := by
  rw [heeded, if_pos h, perform_of_isRefusal h]

theorem heeded_cons (h : (c.answer op).isRefusal = false) (ops : List (Operation Args)) :
    c.heeded (op :: ops) = op :: (c.perform op).1.heeded ops := by
  rw [heeded, h, if_neg Bool.false_ne_true]

theorem answers_heeded (c : Chain Object Args Output) (ops : List (Operation Args)) :
    c.answers (c.heeded ops) = (c.answers ops).filter (!·.isRefusal) := by
  induction ops generalizing c with
  | nil => rfl
  | cons op ops ih =>
    rw [answers]
    cases h : (c.answer op).isRefusal with
    | true => rw [heeded_cons_of_isRefusal h, ih, List.filter_cons_of_neg (by simp [h]), perform_of_isRefusal h]
    | false => rw [heeded_cons h, answers, ih, List.filter_cons_of_pos (by simp [h])]

theorem run_heeded (c : Chain Object Args Output) (ops : List (Operation Args)) :
    (c.run (c.heeded ops)).1 = (c.run ops).1 := by
  induction ops generalizing c with
  | nil => rfl
  | cons op ops ih =>
    rw [run]
    cases h : (c.answer op).isRefusal with
    | true => rw [heeded_cons_of_isRefusal h, ih, perform_of_isRefusal h]
    | false => rw [heeded_cons h, run, ih]

theorem resolve_logged (c : Chain Object Args Output) (log : List (Act Args)) (name : String) (args : Args) :
    (c.logged log).resolve name args = c.resolve name args := rfl

theorem call_logged_of_error (h : c.resolve name args = .error e) (log : List (Act Args)) :
    (c.logged log).call name args = (c.call name args).logged log := by
  rw [call, call, resolve_logged, h]
  rfl

theorem call_logged {t : Term} {j : StateId} (h : c.resolve name args = .ok (t, j)) (log : List (Act Args)) :
    (c.logged log).call name args = (c.call name args).logged (log ++ [.apply t args]) := by
  rw [call, call, resolve_logged, h]
  rcases happly : c.actions.apply t args c.object with ⟨_ | _, object⟩ <;>
    simp only [logged, Actions.logged, happly] <;> rfl

theorem build_logged (c : Chain Object Args Output) (log : List (Act Args)) :
    (c.logged log).build = c.build.logged (if c.isFinal then log ++ [.build] else log) := by
  have hsame : (c.logged log).isFinal = c.isFinal := rfl
  rw [build, build, hsame]
  split <;> rfl

theorem invokes_call (c : Chain Object Args Output) (name : String) (args : Args) (log : List (Act Args)) :
    ∃ acts, c.Invokes (.call name args) acts ∧
      (c.logged log).call name args = (c.call name args).logged (log ++ acts) := by
  rcases call_cases c name args with ⟨e, hresolve, hcall⟩ | ⟨t, j, message, object, hresolve, _, hcall⟩ |
    ⟨t, j, object, hresolve, _, hcall⟩
  · refine ⟨[], .refused ?_, ?_⟩
    · rw [answer, hcall]
      exact isRefusal_of_resolve hresolve
    · rw [List.append_nil, call_logged_of_error hresolve]
  · exact ⟨[.apply t args], .applied (by rw [answer, hcall]; rfl) hresolve, call_logged hresolve log⟩
  · exact ⟨[.apply t args], .applied (by rw [answer, hcall]; rfl) hresolve, call_logged hresolve log⟩

theorem invokes_build (c : Chain Object Args Output) (log : List (Act Args)) :
    ∃ acts, c.Invokes .build acts ∧ (c.logged log).build = c.build.logged (log ++ acts) := by
  rw [build_logged]
  rcases build_cases c with ⟨hfinal, hbuild⟩ | ⟨hfinal, hbuild⟩
  · exact ⟨[.build], .built hfinal (by rw [answer, hbuild]), by rw [hfinal, if_pos rfl]⟩
  · refine ⟨[], .refused (by rw [answer, hbuild]; rfl), ?_⟩
    rw [hfinal, if_neg Bool.false_ne_true, List.append_nil]

theorem exists_invokes (c : Chain Object Args Output) (op : Operation Args) (log : List (Act Args)) :
    ∃ acts, c.Invokes op acts ∧ ((c.logged log).perform op).1 = (c.perform op).1.logged (log ++ acts) ∧
      (c.logged log).answer op = c.answer op := by
  cases op with
  | call name args =>
    obtain ⟨acts, hacts, hlogged⟩ := invokes_call c name args log
    refine ⟨acts, hacts, ?_, ?_⟩
    · rw [perform, hlogged]
      rfl
    · rw [answer, hlogged]
      rfl
  | build =>
    obtain ⟨acts, hacts, hlogged⟩ := invokes_build c log
    refine ⟨acts, hacts, ?_, ?_⟩
    · rw [perform, hlogged]
      rfl
    · rw [answer, hlogged]
      rfl
  | watch => exact ⟨[], .watched, by rw [List.append_nil]; rfl, rfl⟩

theorem exists_invokesAll (c : Chain Object Args Output) (ops : List (Operation Args)) (log : List (Act Args)) :
    ∃ acts, InvokesAll c ops acts ∧ ((c.logged log).run ops).1 = (c.run ops).1.logged (log ++ acts) ∧
      (c.logged log).answers ops = c.answers ops := by
  induction ops generalizing c log with
  | nil => exact ⟨[], .nil c, by rw [List.append_nil]; rfl, rfl⟩
  | cons op ops ih =>
    obtain ⟨u, hu, hperform, hanswer⟩ := exists_invokes c op log
    obtain ⟨v, hv, hrun, hanswers⟩ := ih (c.perform op).1 (log ++ u)
    refine ⟨u ++ v, .cons hu hv, ?_, ?_⟩
    · rw [run, run, hperform, hrun, List.append_assoc]
    · rw [answers, answers, hperform, hanswer, hanswers]

end Chain

/-- Whatever is asked of a chain, its actions are used for what it accepts and not for what it refuses; what it refuses could
as well not have been asked. Here `Actions.select` has no effect: it sees the object, and gives an index and no other
object. -/
theorem refusals_leave_no_mark (c : Chain Object Args Output) (ops : List (Operation Args)) :
    (∃ acts, Chain.InvokesAll c ops acts ∧ ((c.logged []).run ops).1 = (c.run ops).1.logged acts ∧
      (c.logged []).answers ops = c.answers ops) ∧
    (c.run ops).1.Guarded ∧
    c.answers (c.heeded ops) = (c.answers ops).filter (!·.isRefusal) ∧
    (c.run (c.heeded ops)).1 = (c.run ops).1 :=
  ⟨c.exists_invokesAll ops [], (c.run ops).1.guarded, c.answers_heeded ops, c.run_heeded ops⟩

end CallGrammar
