import CallGrammar.Chain.Traced
import CallGrammar.Proofs.Colours
import CallGrammar.Proofs.Walk

namespace CallGrammar

open Ansi (Veils escape strip)

variable {Object Args Output : Type}

inductive Task (Args : Type) where
  | ask (op : Operation Args)
  | trace (trace : Option Trace)

def Task.operation? : Task Args → Option (Operation Args)
  | .ask op => some op
  | .trace _ => none

structure Sight (Output : Type) where
  answer : Answer Output
  state : StateId
  expected : List String
  canBuild : Bool

def Chain.sight (c : Chain Object Args Output) (answer : Answer Output) : Sight Output :=
  ⟨answer, c.state, c.expected, c.canBuild⟩

def Chain.sights (c : Chain Object Args Output) : List (Operation Args) → List (Sight Output)
  | [] => []
  | op :: ops => (c.perform op).1.sight (c.answer op) :: (c.perform op).1.sights ops

namespace Traced

def perform (w : Traced Object Args Output) : Operation Args → Answer Output × Traced Object Args Output
  | .call name args => (.called (w.call name args).1, (w.call name args).2)
  | .build => (.built w.build.1, w.build.2)
  | .watch => (.watched, w.noteState)

def sights (w : Traced Object Args Output) : List (Task Args) → List (Sight Output)
  | [] => []
  | .ask op :: tasks => (w.perform op).2.chain.sight (w.perform op).1 :: (w.perform op).2.sights tasks
  | .trace trace :: tasks => (w.withTrace trace).sights tasks

def after (w : Traced Object Args Output) : List (Task Args) → Traced Object Args Output
  | [] => w
  | .ask op :: tasks => (w.perform op).2.after tasks
  | .trace trace :: tasks => (w.withTrace trace).after tasks

def lines (w : Traced Object Args Output) : List String := w.trace.elim [] (·.lines)

def notes (w : Traced Object Args Output) (events : List Event) : Traced Object Args Output :=
  { w with trace := w.trace.map (·.observe events) }

variable {w : Traced Object Args Output}

theorem notes_notes (w : Traced Object Args Output) (es fs : List Event) : (w.notes es).notes fs = w.notes (es ++ fs) := by
  obtain ⟨c, _ | trace⟩ := w
  · rfl
  · simp [notes, Trace.observe_append]

theorem notes_nil (w : Traced Object Args Output) : w.notes [] = w := by
  obtain ⟨c, _ | trace⟩ := w
  · rfl
  · simp [notes, Trace.observe]

theorem call_eq (w : Traced Object Args Output) (name : String) (args : Args) : w.call name args =
    ((w.chain.call name args).result, { w with chain := (w.chain.call name args).chain }.notes (w.chain.call name args).events) := by
  have hchain : (w.note (.called w.chain.state name)).chain = w.chain := rfl
  rw [call, Chain.call]
  simp only [hchain]
  cases hresolve : w.chain.resolve name args with
  | error e => exact congrArg (Prod.mk _) (notes_notes w _ _)
  | ok move =>
    rcases happly : w.chain.actions.apply move.1 args w.chain.object with ⟨message | _, object⟩
    · simp only [happly]
      exact congrArg (Prod.mk _) (notes_notes { w with chain := { w.chain with object } } _ _)
    · simp only [happly]
      let moved : Traced Object Args Output := { w with chain := { w.chain with object, state := move.2 } }
      have hmoved := notes_notes moved [.called w.chain.state name] [.moved w.chain.state move.1 move.2]
      have hresting := notes_notes moved [.called w.chain.state name, .moved w.chain.state move.1 move.2]
        [moved.chain.resting]
      exact congrArg (Prod.mk _) ((congrArg (notes · [moved.chain.resting]) hmoved).trans hresting)

theorem build_eq (w : Traced Object Args Output) : w.build =
    (w.chain.build.result, { w with chain := w.chain.build.chain }.notes w.chain.build.events) := by
  rw [build, Chain.build]
  split
  · rfl
  · rfl

theorem perform_eq (w : Traced Object Args Output) (op : Operation Args) : w.perform op =
    (w.chain.answer op, { w with chain := (w.chain.perform op).1 }.notes (w.chain.perform op).2) := by
  cases op with
  | call name args => rw [perform, call_eq, Chain.answer, Chain.perform]
  | build => rw [perform, build_eq, Chain.answer, Chain.perform]
  | watch => rfl

theorem sights_eq (w : Traced Object Args Output) (tasks : List (Task Args)) :
    w.sights tasks = w.chain.sights (tasks.filterMap Task.operation?) := by
  induction tasks generalizing w with
  | nil => rfl
  | cons task tasks ih =>
    cases task with
    | ask op =>
      rw [sights, ih, perform_eq]
      rfl
    | trace trace =>
      rw [sights, ih]
      rfl

theorem chain_after (w : Traced Object Args Output) (tasks : List (Task Args)) :
    (w.after tasks).chain = (w.chain.run (tasks.filterMap Task.operation?)).1 := by
  induction tasks generalizing w with
  | nil => rfl
  | cons task tasks ih =>
    cases task with
    | ask op =>
      rw [after, ih, perform_eq]
      rfl
    | trace trace =>
      rw [after, ih]
      rfl

theorem after_ask (w : Traced Object Args Output) (ops : List (Operation Args)) :
    w.after (ops.map .ask) = { w with chain := (w.chain.run ops).1 }.notes (w.chain.run ops).2 := by
  induction ops generalizing w with
  | nil => exact (notes_nil w).symm
  | cons op ops ih =>
    rw [List.map_cons, after, ih, perform_eq, Chain.run]
    exact notes_notes { w with chain := ((w.chain.perform op).1.run ops).1 } _ _

end Traced

theorem DispatchError.lacks_quoted {name : String} (h : Lacks escape name) : Lacks escape (quoted name) :=
  (Lacks.append (by decide) h).append (by decide)

namespace Chain

variable {c : Chain Object Args Output} {op : Operation Args} {ops : List (Operation Args)} {t : Term} {j : StateId} {name : String}
  {args : Args} {e : DispatchError}

def lines (c : Chain Object Args Output) (verbosity : Verbosity) (p : Palette) (ops : List (Operation Args)) :
    List String :=
  ((c.traced (some (.start verbosity p))).after (ops.map .ask)).lines

theorem lines_eq (c : Chain Object Args Output) (verbosity : Verbosity) (p : Palette) (ops : List (Operation Args)) :
    c.lines verbosity p ops = ((Trace.start verbosity p).observe (c.run (.watch :: ops)).2).lines := by
  rw [lines, Traced.after_ask]
  change (((Trace.start verbosity p).observe [c.resting]).observe (c.run ops).2).lines = _
  rw [← Trace.observe_append]
  rfl

theorem lines_eq_map (c : Chain Object Args Output) (verbosity : Verbosity) (p : Palette) (ops : List (Operation Args)) :
    c.lines verbosity p ops =
      ((c.run (.watch :: ops)).2.filter (·.detail.rank ≤ verbosity.rank)).map (·.line p) := by
  rw [lines_eq]
  rfl

theorem lines_sublist {v v' : Verbosity} (h : v.rank ≤ v'.rank) (c : Chain Object Args Output) (p : Palette)
    (ops : List (Operation Args)) : (c.lines v p ops).Sublist (c.lines v' p ops) := by
  rw [lines_eq_map, lines_eq_map]
  refine (List.monotone_filter_right _ fun e he => ?_).map _
  exact decide_eq_true (Nat.le_trans (of_decide_eq_true he) h)

structure EscapeFree (c : Chain Object Args Output) (ops : List (Operation Args)) : Prop where
  terms {t : Term} : t ∈ c.terms.toList → Lacks escape t.name ∧ Lacks escape t.callable
  names {name : String} {args : Args} : .call name args ∈ ops → Lacks escape name
  messages {name message : String} : .called (.error (.failed name message)) ∈ c.answers ops → Lacks escape message

theorem mem_terms_of_mem_moves (h : (t, j) ∈ c.moves) : t ∈ c.terms.toList := by
  obtain ⟨id, _, hid⟩ := mem_moves_iff.mp h
  rw [TermTable.get?_eq_getElem?] at hid
  exact List.mem_of_getElem? hid

theorem terms_perform (c : Chain Object Args Output) (op : Operation Args) : (c.perform op).1.terms = c.terms := by
  obtain ⟨_, _, hperform, _⟩ := c.exists_perform_eq op
  rw [hperform]

section

variable (hterms : ∀ t ∈ c.terms.toList, Lacks escape t.name ∧ Lacks escape t.callable)

include hterms

theorem lacks_text (h : (t, j) ∈ c.moves) : Lacks escape t.text := by
  obtain ⟨hname, hcallable⟩ := hterms t (mem_terms_of_mem_moves h)
  rw [Term.text]
  split
  · exact (hname.append (by decide)).append hcallable
  · exact hname

theorem lacks_of_mem_expected (h : name ∈ c.expected) : Lacks escape name := by
  obtain ⟨t, j, hmove, rfl⟩ := mem_expected_iff.mp h
  exact (hterms t (mem_terms_of_mem_moves hmove)).2

theorem lacks_message_of_resolve (hname : Lacks escape name) (h : c.resolve name args = .error e) :
    Lacks escape e.message := by
  have hquoted : Lacks escape (DispatchError.quoted name) := DispatchError.lacks_quoted hname
  have hstate : Lacks escape (Dfa.stateLabel c.state) := .stateLabel (by decide) (by decide) c.state
  rcases resolve_eq_error h with rfl | ⟨rfl, _⟩
  · have hexpected : Lacks escape (DispatchError.expectedText c.expected) := by
      rw [DispatchError.expectedText]
      split
      · decide
      · refine .intercalate (by decide) fun text htext => ?_
        obtain ⟨callable, hcallable, rfl⟩ := List.mem_map.mp htext
        exact DispatchError.lacks_quoted (lacks_of_mem_expected hterms hcallable)
    exact (((hquoted.append (by decide)).append hstate).append (by decide)).append hexpected
  · have hcandidates : Lacks escape (", ".intercalate (((c.candidates name).map (·.1)).map (·.text))) := by
      refine .intercalate (by decide) fun text htext => ?_
      obtain ⟨_, ht, rfl⟩ := List.mem_map.mp htext
      obtain ⟨move, hmove, rfl⟩ := List.mem_map.mp ht
      exact lacks_text hterms (mem_candidates hmove).1
    exact (((hquoted.append (by decide)).append hstate).append (by decide)).append hcandidates

end

theorem EscapeFree.of_cons (h : c.EscapeFree (op :: ops)) : (c.perform op).1.EscapeFree ops where
  terms ht := h.terms (c.terms_perform op ▸ ht)
  names hop := h.names (List.mem_cons_of_mem op hop)
  messages ha := h.messages (List.mem_cons_of_mem _ ha)

theorem EscapeFree.lacks_texts (h : c.EscapeFree (op :: ops)) :
    ∀ event ∈ (c.perform op).2, ∀ text ∈ event.texts, Lacks escape text := by
  have hterms : ∀ t ∈ c.terms.toList, Lacks escape t.name ∧ Lacks escape t.callable := fun _ => h.terms
  cases op with
  | call name args =>
    have hname : Lacks escape name := h.names List.mem_cons_self
    have hcalled : ∀ text ∈ (Event.called c.state name).texts, Lacks escape text := List.forall_mem_singleton.mpr hname
    rcases call_cases c name args with ⟨e, hresolve, hcall⟩ | ⟨t, j, message, object, _, _, hcall⟩ |
      ⟨t, j, object, hresolve, _, hcall⟩ <;> rw [perform, hcall]
    · have hmessage : Lacks escape e.message := lacks_message_of_resolve hterms hname hresolve
      exact List.forall_mem_cons.mpr ⟨hcalled, List.forall_mem_singleton.mpr
        (List.forall_mem_cons.mpr ⟨hname, List.forall_mem_singleton.mpr hmessage⟩)⟩
    · have hfailed : Answer.called (.error (.failed name message)) ∈ c.answers (.call name args :: ops) := by
        rw [answers, answer, hcall]
        exact List.mem_cons_self
      have hmessage : Lacks escape (DispatchError.failed name message).message :=
        ((Lacks.append (by decide) (DispatchError.lacks_quoted hname)).append (by decide)).append (h.messages hfailed)
      exact List.forall_mem_cons.mpr ⟨hcalled, List.forall_mem_singleton.mpr
        (List.forall_mem_cons.mpr ⟨hname, List.forall_mem_singleton.mpr hmessage⟩)⟩
    · have hmoved : ∀ text ∈ (Event.moved c.state t j).texts, Lacks escape text :=
        List.forall_mem_singleton.mpr (lacks_text hterms (mem_candidates (mem_candidates_of_resolve hresolve)).1)
      have hresting : ∀ text ∈ ({ c with object, state := j }.resting).texts, Lacks escape text :=
        fun _ => lacks_of_mem_expected hterms
      exact List.forall_mem_cons.mpr ⟨hcalled, List.forall_mem_cons.mpr ⟨hmoved, List.forall_mem_singleton.mpr hresting⟩⟩
  | build =>
    rcases build_cases c with ⟨_, hbuild⟩ | ⟨_, hbuild⟩ <;> rw [perform, hbuild] <;>
      exact List.forall_mem_singleton.mpr (List.forall_mem_nil _)
  | watch => exact List.forall_mem_singleton.mpr fun _ => lacks_of_mem_expected hterms

theorem EscapeFree.lacks_texts_run (h : c.EscapeFree ops) :
    ∀ event ∈ (c.run ops).2, ∀ text ∈ event.texts, Lacks escape text := by
  induction ops generalizing c with
  | nil => exact nofun
  | cons op ops ih => exact List.forall_mem_append.mpr ⟨h.lacks_texts, ih h.of_cons⟩

theorem strip_lines (h : c.EscapeFree ops) (verbosity : Verbosity) :
    (c.lines verbosity .ansi ops).map strip = c.lines verbosity .plain ops := by
  have htexts : ∀ event ∈ (c.run (.watch :: ops)).2, ∀ text ∈ event.texts, Lacks escape text :=
    List.forall_mem_cons.mpr ⟨fun _ => lacks_of_mem_expected fun _ => h.terms, h.lacks_texts_run⟩
  rw [lines_eq_map, lines_eq_map, List.map_map]
  refine List.map_congr_left fun event hevent => ?_
  exact (Event.veils_line (htexts event (List.mem_filter.mp hevent).1)).strip_eq

structure Traceable (c : Chain Object Args Output) : Prop where
  sights_eq (trace : Option Trace) (tasks : List (Task Args)) :
    (c.traced trace).sights tasks = c.sights (tasks.filterMap Task.operation?)
  chain_eq (trace : Option Trace) (tasks : List (Task Args)) :
    ((c.traced trace).after tasks).chain = (c.run (tasks.filterMap Task.operation?)).1
  alike {tasks tasks' : List (Task Args)} : tasks.filterMap Task.operation? = tasks'.filterMap Task.operation? →
    ∀ trace trace' : Option Trace, (c.traced trace).sights tasks = (c.traced trace').sights tasks' ∧
      ((c.traced trace).after tasks).chain = ((c.traced trace').after tasks').chain
  lines_eq (verbosity : Verbosity) (p : Palette) (ops : List (Operation Args)) :
    c.lines verbosity p ops = ((Trace.start verbosity p).observe (c.run (.watch :: ops)).2).lines
  brief_sublist (p : Palette) (ops : List (Operation Args)) : (c.lines .brief p ops).Sublist (c.lines .verbose p ops)
  verbose_sublist (p : Palette) (ops : List (Operation Args)) :
    (c.lines .verbose p ops).Sublist (c.lines .veryVerbose p ops)
  strip_lines {ops : List (Operation Args)} : c.EscapeFree ops → ∀ verbosity : Verbosity,
    (c.lines verbosity .ansi ops).map strip = c.lines verbosity .plain ops

end Chain

theorem traceable (c : Chain Object Args Output) : c.Traceable where
  sights_eq trace tasks := Traced.sights_eq (c.traced trace) tasks
  chain_eq trace tasks := Traced.chain_after (c.traced trace) tasks
  alike h trace trace' := by
    refine ⟨?_, ?_⟩
    · rw [Traced.sights_eq, Traced.sights_eq, h]
      rfl
    · rw [Traced.chain_after, Traced.chain_after, h]
      rfl
  lines_eq := c.lines_eq
  brief_sublist := Chain.lines_sublist (by decide) c
  verbose_sublist := Chain.lines_sublist (by decide) c
  strip_lines := Chain.strip_lines

theorem traceable_on_visit : ∃ g, Grammar.compile ⟨1, 8⟩ "(a|b:c)+ d?" = .ok g ∧ (g.chain recorder []).EscapeFree visit ∧
    ((g.chain recorder []).lines .veryVerbose .ansi visit).map strip =
      (g.chain recorder []).lines .veryVerbose .plain visit := by
  have hterms : (Grammar.compile ⟨1, 8⟩ "(a|b:c)+ d?").toOption.any
      (·.terms.toList.all fun t => decide (Lacks escape t.name ∧ Lacks escape t.callable)) = true := by decide +kernel
  obtain ⟨g, hg, hterms⟩ := exists_ok_of_any hterms
  have hfree : (g.chain recorder []).EscapeFree visit :=
    { terms := fun ht => of_decide_eq_true (List.all_eq_true.mp hterms _ ht)
      names := fun hop => by
        simp only [visit, List.mem_cons, List.not_mem_nil, Operation.call.injEq, reduceCtorEq, false_or, or_false] at hop
        rcases hop with ⟨rfl, _⟩ | ⟨rfl, _⟩ | ⟨rfl, _⟩ <;> decide
      messages := fun ha => by cases RecordingChain.isRefusal_of_mem_answers rfl ha }
  exact ⟨g, hg, hfree, (traceable (g.chain recorder [])).strip_lines hfree .veryVerbose⟩

end CallGrammar
