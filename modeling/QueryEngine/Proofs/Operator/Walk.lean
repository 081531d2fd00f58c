import Mathlib.Data.List.Infix
import QueryEngine.Proofs.Operator.Bare

/-!
# Walks over lists

A visitor that leaves the storage alone is a step on a running value, and visiting rows with it is a
walk over a list: no storage, no pages, no buffers. Whatever rows an operator still has to hand out,
its traversal comes to the walk over them.

## Walks that are broken off

A page read that fails breaks the traversal off. The rows visited before it are gone, and all others
are still there: the reply is that of the walk over the first rows (`Reply.Breaks`). The loops over
rows and pages keep that it is one or the other (`Reply.Attempts`). If no failure is allowed, the
attempt is the walk (`Reply.Attempts.walks`).

## Pages

A storage may change when it is read, if only because it counts the reads. `ReadsAs` says of a set
of states that reading a table never leaves them, and shows the same pages unless it fails.
`Displays` says that it does not fail. The traversal of pages is then the walk over their rows
(`visitPages_walks`).
-/

namespace QueryEngine

variable {σ τ ν ν' α : Type}

/-! ## Steps -/

/-- What is done with each row, to a running value only. -/
abbrev Step (α : Type) := Row → α → Except QueryError (ForInStep α)

def Step.visitor (step : Step α) : Visitor σ α :=
  fun r a s ↦ (step r a, s)

/-- The step with the rows left out that do not satisfy a predicate. -/
def Predicate.guardStep (p : Predicate) (step : Step α) : Step α :=
  fun r a ↦
    match p.holds r with
    | .ok true => step r a
    | .ok false => .ok (.yield a)
    | .error e => .error e

def firstStep : Step (Option Row) :=
  fun r _ ↦ .ok (.done (some r))

def gatherStep : Step (List Row) :=
  fun r rows ↦ .ok (.yield (r :: rows))

def mergeStep : Step Grouping :=
  fun r g ↦ (g.merge r).map .yield

theorem takeFirst_eq : (takeFirst : Visitor σ (Option Row)) = firstStep.visitor := rfl

theorem gather_eq : (gather : Visitor σ (List Row)) = gatherStep.visitor := rfl

theorem mergeRow_eq : (mergeRow : Visitor σ Grouping) = mergeStep.visitor := rfl

theorem Predicate.guard_visitor (p : Predicate) (step : Step α) :
    p.guard step.visitor = ((p.guardStep step).visitor : Visitor σ α) := by
  funext r a s
  rw [guard, Step.visitor, Step.visitor, guardStep]
  rcases p.holds r with e | _ | _ <;> rfl

/-! ## Walks -/

/-- Takes a step for each row in order. Beside the answer stand the rows not visited. -/
def walk (step : Step α) : List Row → α → Except QueryError (ForInStep α) × List Row
  | [], a => (.ok (.yield a), [])
  | r :: rest, a =>
    match step r a with
    | .ok (.yield a') => walk step rest a'
    | answer => (answer, rest)

theorem visitRows_visitor (step : Step α) (rows : List Row) (a : α) (s : σ) :
    visitRows step.visitor rows a s = ⟨(walk step rows a).1, (walk step rows a).2, s⟩ := by
  induction rows generalizing a with
  | nil => rfl
  | cons r rest ih =>
    rw [visitRows, walk, Step.visitor]
    rcases step r a with e | ⟨a'⟩ | ⟨a'⟩
    · rfl
    · rfl
    · exact ih a'

theorem walk_suffix (step : Step α) (rows : List Row) (a : α) :
    (walk step rows a).2 <:+ rows := by
  induction rows generalizing a with
  | nil => exact List.suffix_rfl
  | cons r rest ih =>
    rw [walk]
    split
    · exact (ih _).trans (List.suffix_cons r rest)
    · exact List.suffix_cons r rest

theorem walk_snd_of_yield {step : Step α} {rows : List Row} {a a' : α}
    (h : (walk step rows a).1 = .ok (.yield a')) : (walk step rows a).2 = [] := by
  induction rows generalizing a with
  | nil => rfl
  | cons r rest ih =>
    rw [walk] at h ⊢
    split at h
    · exact ih h
    · next hstop => exact absurd h (hstop a')

theorem walk_append_of_yield {step : Step α} {rows rows' : List Row} {a a' : α}
    (h : (walk step rows a).1 = .ok (.yield a')) :
    walk step (rows ++ rows') a = walk step rows' a' := by
  induction rows generalizing a with
  | nil =>
    cases h
    rfl
  | cons r rest ih =>
    rw [walk] at h
    rw [List.cons_append, walk]
    split at h
    · exact ih h
    · next hstop => exact absurd h (hstop a')

theorem walk_append_of_stop {step : Step α} {rows rows' : List Row} {a : α}
    (h : ∀ a', (walk step rows a).1 ≠ .ok (.yield a')) :
    walk step (rows ++ rows') a = ((walk step rows a).1, (walk step rows a).2 ++ rows') := by
  induction rows generalizing a with
  | nil => exact absurd rfl (h a)
  | cons r rest ih =>
    rw [walk] at h
    rw [List.cons_append, walk, walk]
    split at h
    · exact ih h
    · rfl

theorem walk_gatherStep (rows before : List Row) :
    (walk gatherStep rows before).1 = .ok (.yield (rows.reverse ++ before)) := by
  induction rows generalizing before with
  | nil => rfl
  | cons r rest ih =>
    rw [walk, gatherStep, List.reverse_cons, List.append_assoc]
    exact ih (r :: before)

def Predicate.select (p : Predicate) (rows : List Row) : List Row :=
  rows.filter fun r ↦ p.holds r = .ok true

/-- A guarded walk is the walk over the rows that satisfy the predicate, as long as the predicate
can be evaluated. -/
theorem walk_guardStep {p : Predicate} {rows : List Row}
    (evaluates : ∀ r ∈ rows, ∃ b, p.holds r = .ok b) (step : Step α) (a : α) :
    (walk (p.guardStep step) rows a).1 = (walk step (p.select rows) a).1
      ∧ p.select (walk (p.guardStep step) rows a).2 = (walk step (p.select rows) a).2 := by
  induction rows generalizing a with
  | nil => exact ⟨rfl, rfl⟩
  | cons r rest ih =>
    have hrest := ih fun r hr ↦ evaluates r (List.mem_cons_of_mem _ hr)
    obtain ⟨b, hb⟩ := evaluates r List.mem_cons_self
    rw [walk, Predicate.guardStep, hb, Predicate.select]
    cases b with
    | true =>
      rw [List.filter_cons_of_pos (by simpa using hb), walk]
      rcases step r a with e | ⟨a'⟩ | ⟨a'⟩
      · exact ⟨rfl, rfl⟩
      · exact ⟨rfl, rfl⟩
      · exact hrest a'
    | false =>
      rw [List.filter_cons_of_neg (by simp [hb])]
      exact hrest a

/-! ## Traversals that are walks -/

/-- The reply is that of a walk, if `rest` tells the rows that a node has still to hand out; the
storage is in one of the given states, and the node in good order. -/
structure Reply.Walks (reply : Reply ν σ (ForInStep α)) (states : σ → Prop) (good : ν → Prop)
    (rest : ν → List Row) (w : Except QueryError (ForInStep α) × List Row) : Prop where
  answer_eq : reply.answer = w.1
  rest_eq : rest reply.node = w.2
  store : states reply.store
  node : good reply.node

/-- The reply is that of a walk over the first ones of the given rows, which a failed call of the
given kind has broken off; the others are still to be handed out. -/
structure Reply.Breaks (reply : Reply ν σ (ForInStep α)) (refused : StorageError → Prop)
    (states : σ → Prop) (good : ν → Prop) (rest : ν → List Row) (step : Step α) (rows : List Row)
    (a : α) : Prop where
  answer : ∃ e, refused e ∧ reply.answer = .error (.storage e)
  visited : ∃ seen a', rows = seen ++ rest reply.node ∧ (walk step seen a).1 = .ok (.yield a')
  store : states reply.store
  node : good reply.node

/-- The reply is that of the walk over the given rows, unless a failed call of the given kind has
broken it off. -/
def Reply.Attempts (reply : Reply ν σ (ForInStep α)) (refused : StorageError → Prop)
    (states : σ → Prop) (good : ν → Prop) (rest : ν → List Row) (step : Step α) (rows : List Row)
    (a : α) : Prop :=
  reply.Walks states good rest (walk step rows a)
    ∨ reply.Breaks refused states good rest step rows a

namespace Reply.Attempts

variable {reply : Reply ν σ (ForInStep α)} {refused : StorageError → Prop} {states : σ → Prop}
  {good : ν → Prop} {rest : ν → List Row} {step : Step α} {rows : List Row} {a : α}

theorem walks (h : reply.Attempts (fun _ ↦ False) states good rest step rows a) :
    reply.Walks states good rest (walk step rows a) := by
  rcases h with hwalk | ⟨⟨e, he, -⟩, -, -, -⟩
  · exact hwalk
  · exact he.elim

theorem mapNode {good' : ν' → Prop} {rest' : ν' → List Row} {f : ν → ν'}
    (h : reply.Attempts refused states good rest step rows a)
    (hrest : ∀ node, rest' (f node) = rest node) (hgood : ∀ node, good node → good' (f node)) :
    (reply.mapNode f).Attempts refused states good' rest' step rows a := by
  rcases h with hwalk | ⟨hanswer, ⟨seen, a', hrows, hseen⟩, hstore, hnode⟩
  · exact .inl ⟨hwalk.answer_eq, (hrest reply.node).trans hwalk.rest_eq, hwalk.store,
      hgood _ hwalk.node⟩
  · exact .inr ⟨hanswer, ⟨seen, a', hrows.trans (congrArg (seen ++ ·) (hrest reply.node).symm),
      hseen⟩, hstore, hgood _ hnode⟩

/-- A walk to the end of some rows goes on with the attempt on the rows after them. -/
theorem prepend {seen : List Row} {a' : α} (hseen : (walk step seen a).1 = .ok (.yield a'))
    (h : reply.Attempts refused states good rest step rows a') :
    reply.Attempts refused states good rest step (seen ++ rows) a := by
  rcases h with hwalk | ⟨hanswer, ⟨seen', a'', hrows, hseen'⟩, hstore, hnode⟩
  · refine .inl ?_
    rw [walk_append_of_yield hseen]
    exact hwalk
  · refine .inr ⟨hanswer, ⟨seen ++ seen', a'', ?_, ?_⟩, hstore, hnode⟩
    · rw [hrows, List.append_assoc]
    · rw [walk_append_of_yield hseen, hseen']

end Reply.Attempts

/-- The rows that an operator in a given state has still to hand out, if `rows` follow the row in
its buffer. -/
def Lookahead.rest : Lookahead → List Row → List Row
  | closed, _ | exhausted, _ => []
  | ready buffered, rows => buffered.toList ++ rows

theorem Lookahead.resume_attempts {look : Lookahead} (isOpen : look ≠ closed) {label : String}
    {step : Step α} {a : α} {s : σ} {refused : StorageError → Prop} {states : σ → Prop}
    (hs : states s) {node : Lookahead → ν} {more : α → σ → Reply ν σ (ForInStep α)}
    {good : ν → Prop} {rest : ν → List Row} {rows : List Row}
    (hready : rest (node (ready none)) = rows) (hexhausted : rest (node exhausted) = [])
    (hgood : ∀ look, look ≠ closed → good (node look))
    (hmore : ∀ a s, states s → (more a s).Attempts refused states good rest step rows a) :
    (look.resume label step.visitor a s node more).Attempts refused states good rest step
      (look.rest rows) a := by
  have hgood' := hgood (ready none) (ready_ne_closed none)
  rcases look with _ | (_ | r) | _
  · exact absurd rfl isOpen
  · exact hmore a s hs
  · rw [resume, Step.visitor, Lookahead.rest, Option.toList_some]
    rcases hstep : step r a with e | ⟨a'⟩ | ⟨a'⟩
    · refine .inl ?_
      rw [List.singleton_append, walk, hstep]
      exact ⟨rfl, hready, hs, hgood'⟩
    · refine .inl ?_
      rw [List.singleton_append, walk, hstep]
      exact ⟨rfl, hready, hs, hgood'⟩
    · refine (hmore a' s hs).prepend ?_
      rw [walk, hstep]
      rfl
  · exact .inl ⟨rfl, hexhausted, hs, hgood exhausted exhausted_ne_closed⟩

/-- An operator that came to the end of its rows is exhausted, and has none left anyway. -/
theorem Lookahead.rest_after {step : Step α} {rows : List Row} {a : α} :
    (after (walk step rows a).1).rest (walk step rows a).2 = (walk step rows a).2 := by
  rcases h : (walk step rows a).1 with e | ⟨a'⟩ | ⟨a'⟩
  · rfl
  · rfl
  · rw [walk_snd_of_yield h]
    rfl

/-! ## Pages -/

/-- In the given states a page of a table is read as given, unless the read fails in the given way,
and either way the states are not left. -/
def ReadsAs [Storage σ τ] (refused : StorageError → Prop) (states : σ → Prop) (table : τ)
    (pages : List (List Row)) : Prop :=
  ∀ s p rows, states s → pages[p]? = some rows → ∃ s', states s'
    ∧ (Storage.readPage table (UInt32.ofNat p) s = (.ok rows, s')
      ∨ ∃ e, refused e ∧ Storage.readPage table (UInt32.ofNat p) s = (.error e, s'))

/-- In the given states a table shows the given pages, and reading it does not leave them. -/
structure Displays [Storage σ τ] (states : σ → Prop) (table : τ) (pages : List (List Row)) :
    Prop where
  pageCount_eq : ∀ s, states s → ∃ s',
    Storage.pageCount table s = (.ok pages.length, s') ∧ states s'
  readPage_eq : ∀ s p rows, states s → pages[p]? = some rows → ∃ s',
    Storage.readPage table (UInt32.ofNat p) s = (.ok rows, s') ∧ states s'

theorem readsAs_of_served [Storage σ τ] {states : σ → Prop} {table : τ} {pages : List (List Row)}
    (read : ∀ s p rows, states s → pages[p]? = some rows → ∃ s',
      Storage.readPage table (UInt32.ofNat p) s = (.ok rows, s') ∧ states s') :
    ReadsAs (fun _ ↦ False) states table pages := by
  intro s p rows hs hrows
  obtain ⟨s', hread, hs'⟩ := read s p rows hs hrows
  exact ⟨s', hs', .inl hread⟩

/-- If pages are read as given, visiting them attempts the walk over their rows. -/
theorem visitPages_attempts [Storage σ τ] {refused : StorageError → Prop} {states : σ → Prop}
    {table : τ} {pages : List (List Row)} (read : ReadsAs refused states table pages)
    (step : Step α) (next : Nat) (a : α) {s : σ} (hs : states s) :
    (visitPages table step.visitor (pages.length - next) next a s).Attempts refused states
      (fun _ ↦ True) (fun node ↦ node.2 ++ (pages.drop node.1).flatten) step
      (pages.drop next).flatten a := by
  induction hleft : pages.length - next generalizing next a s with
  | zero =>
    have hdrop : pages.drop next = [] := List.drop_of_length_le (by omega)
    refine .inl ⟨?_, ?_, hs, trivial⟩
    · rw [visitPages, hdrop]
      rfl
    · rw [visitPages, hdrop]
      simp [walk]
  | succ left ih =>
    have hlt : next < pages.length := by omega
    have hdrop := List.drop_eq_getElem_cons hlt
    obtain ⟨s', hs', hread | ⟨e, he, hread⟩⟩ := read s next _ hs (List.getElem?_eq_getElem hlt)
    · rw [visitPages, hread, hdrop, List.flatten_cons]
      simp only [visitRows_visitor]
      -- The walk over the page comes to its end and goes on with the next page, or it stops before.
      by_cases hyield : ∃ a', (walk step pages[next] a).1 = .ok (.yield a')
      · obtain ⟨a', ha'⟩ := hyield
        rw [ha']
        exact (ih (next + 1) a' hs' (by omega)).prepend ha'
      · have hstop : ∀ a', (walk step pages[next] a).1 ≠ .ok (.yield a') := not_exists.mp hyield
        refine .inl ?_
        rw [walk_append_of_stop hstop]
        rcases hanswer : (walk step pages[next] a).1 with e | ⟨a'⟩ | ⟨a'⟩
        · exact ⟨rfl, rfl, hs', trivial⟩
        · exact ⟨rfl, rfl, hs', trivial⟩
        · exact absurd hanswer (hstop a')
    · rw [visitPages, hread]
      exact .inr ⟨⟨e, he, rfl⟩, ⟨[], a, rfl, rfl⟩, hs', trivial⟩

/-- If pages are always read as given, visiting them is the walk over their rows. -/
theorem visitPages_walks [Storage σ τ] {states : σ → Prop} {table : τ} {pages : List (List Row)}
    (read : ∀ s p rows, states s → pages[p]? = some rows → ∃ s',
      Storage.readPage table (UInt32.ofNat p) s = (.ok rows, s') ∧ states s')
    (step : Step α) (next : Nat) (a : α) {s : σ} (hs : states s) :
    (visitPages table step.visitor (pages.length - next) next a s).Walks states (fun _ ↦ True)
      (fun node ↦ node.2 ++ (pages.drop node.1).flatten)
      (walk step (pages.drop next).flatten a) :=
  (visitPages_attempts (readsAs_of_served read) step next a hs).walks

end QueryEngine
