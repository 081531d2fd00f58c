import QueryEngine.Proofs.Operator.History
import QueryEngine.Proofs.Operator.Modify
import QueryEngine.Proofs.Operator.OneShot
import QueryEngine.Proofs.Operator.Sieve
import QueryEngine.Proofs.Operator.Sweep
import QueryEngine.Proofs.Storage.Population
import QueryEngine.Proofs.Storage.Quiet

/-!
# What a failure reports

A modification that fails leaves standing what it has written, and its answer says how many rows
that is (`QueryError.affected`). Here the input is a stack of filters over the scan of a table, and
the heap is counted before and after the pull (`Heap.population`), so that the rows that were in
fact written can be held against the number reported.

An insertion reports right whatever goes wrong, since it has all rows of its input before it writes
the first one. A deletion removes each row as it comes, and it reports right if the write of a row
is refused. If it is a page that cannot be read, the failure is passed on as that of the read, and
the rows removed up to then, one for every write, are not reported.

A predicate that does not suit the schema of the table fails on the first row it meets, and no row
gets past it; so nothing has been written then.
-/

namespace QueryEngine

/-- The number of rows that a failure reports to have been written. -/
def QueryError.affected : QueryError → Nat
  | modificationFailed affected _ => affected
  | _ => 0

theorem QueryError.affected_of_cause?_eq_none {e : QueryError} (h : e.cause? = none) :
    e.affected = 0 := by
  cases e with
  | modificationFailed affected cause => cases h
  | _ => rfl

namespace ContestedHeap

variable {α : Type} {table : String} {schema : Schema} {s s' s₀ : ContestedHeap} {e : QueryError}

/-! ## Reading -/

theorem reads_of_keeps {inv : α → ContestedHeap → Prop}
    {fails : QueryError → ContestedHeap → Prop}
    (keeps : ∀ a s, inv a s → s.heap.Keeps table schema)
    (served : ∀ a s reads, inv a s → inv a { s with reads })
    (refused : ∀ a s reads e, inv a s → fails (.storage e) { s with reads }) :
    Reads table (·.Conforms schema) inv fails where
  served := by
    intro page a s rows s' hinv hread
    change s.readPage table page = _ at hread
    rw [readPage] at hread
    split at hread
    · cases hread
    · obtain ⟨hrows, rfl⟩ := Prod.mk.inj hread
      exact ⟨served a s _ hinv, fun r hr ↦ (keeps a s hinv).conforms hrows hr⟩
  refused := by
    intro page a s e s' hinv hread
    change s.readPage table page = _ at hread
    rw [readPage] at hread
    split at hread
    · cases hread
      exact refused a s _ _ hinv
    · obtain ⟨-, rfl⟩ := Prod.mk.inj hread
      exact refused a s _ _ hinv

/-! ## Removing -/

/-- What a failed deletion has removed: as many rows as it made writes if the storage failed outside
of a write, and else as many as it reports. -/
def Deducts (s : ContestedHeap) : QueryError → ContestedHeap → Prop
  | .storage _, s' =>
    s'.heap.population + (s'.writes.calls - s.writes.calls) = s.heap.population
  | e, s' => s'.heap.population + e.affected = s.heap.population

/-- Nothing has been removed when a failure comes that is not owed to the storage. -/
theorem deducts_of_cause?_eq_none (h : e.cause? = none)
    (population_eq : s'.heap.population = s.heap.population) : s.Deducts e s' := by
  cases e with
  | storage cause => cases h
  | modificationFailed affected cause => cases h
  | _ => exact population_eq

/-- A deletion in progress has removed a number of rows, with one write each. -/
structure HasRemoved (s₀ : ContestedHeap) (table : String) (schema : Schema) (n : Nat)
    (s : ContestedHeap) : Prop where
  keeps : s.heap.Keeps table schema
  population_eq : s.heap.population + n = s₀.heap.population
  calls_eq : s.writes.calls = s₀.writes.calls + n

theorem removed_start (keeps : s.heap.Keeps table schema) : s.HasRemoved table schema 0 s :=
  ⟨keeps, rfl, rfl⟩

theorem reads_removed :
    Reads table (·.Conforms schema) (s₀.HasRemoved table schema) s₀.Deducts := by
  refine reads_of_keeps (fun _ _ removed ↦ removed.keeps)
    (fun _ _ _ removed ↦ ⟨removed.keeps, removed.population_eq, removed.calls_eq⟩) ?_
  intro n s reads e removed
  have hpopulation := removed.population_eq
  have hcalls := removed.calls_eq
  change s.heap.population + (s.writes.calls - s₀.writes.calls) = s₀.heap.population
  omega

theorem removeRow_upholds (target : String) :
    (removeRow target).Upholds (·.Conforms schema) (s₀.HasRemoved table schema) s₀.Deducts := by
  intro r n s _ removed
  have hpopulation := removed.population_eq
  have hcalls := removed.calls_eq
  rw [removeRow]
  rcases delete_cases target r s with ⟨heap, hdelete, hserved⟩ | ⟨cause, hrefused⟩
  · have hremoved := Heap.population_delete removed.keeps.orderly hdelete
    rw [hserved]
    refine ⟨removed.keeps.delete hdelete, ?_, ?_⟩
    · change heap.population + (n + 1) = s₀.heap.population
      omega
    · change s.writes.calls + 1 = s₀.writes.calls + (n + 1)
      omega
  · rw [hrefused]
    exact hpopulation

/-! ## Storing -/

/-- What a failed insertion has stored: as many rows as it reports. -/
def Credits (s : ContestedHeap) (e : QueryError) (s' : ContestedHeap) : Prop :=
  s'.heap.population = s.heap.population + e.affected

/-- While rows are collected, nothing is stored. -/
structure Untouched (s₀ : ContestedHeap) (table : String) (schema : Schema) (s : ContestedHeap) :
    Prop where
  keeps : s.heap.Keeps table schema
  population_eq : s.heap.population = s₀.heap.population

theorem untouched_start (keeps : s.heap.Keeps table schema) : s.Untouched table schema s :=
  ⟨keeps, rfl⟩

theorem Untouched.credits (untouched : s₀.Untouched table schema s) (h : e.affected = 0) :
    s₀.Credits e s := by
  rw [Credits, h]
  exact untouched.population_eq

theorem reads_untouched :
    Reads table (·.Conforms schema) (fun (_ : α) s ↦ s₀.Untouched table schema s) s₀.Credits :=
  reads_of_keeps (fun _ _ untouched ↦ untouched.keeps)
    (fun _ _ _ untouched ↦ ⟨untouched.keeps, untouched.population_eq⟩)
    fun _ _ _ _ untouched ↦ untouched.population_eq

theorem credits_storeRows (target : String) {rows : List Row} {n : Nat}
    (keeps : s.heap.Keeps table schema)
    (population_eq : s.heap.population = s₀.heap.population + n)
    (failed : storeRows target rows n s = (.error e, s')) : s₀.Credits e s' := by
  induction rows generalizing n s with
  | nil => cases failed
  | cons r rest ih =>
    rw [storeRows] at failed
    rcases insert_cases target r s with ⟨id, heap, hinsert, hserved⟩ | ⟨cause, hrefused⟩
    · have hstored := Heap.population_insert keeps.orderly hinsert
      rw [hserved] at failed
      refine ih (keeps.insert hinsert) ?_ failed
      change heap.population = s₀.heap.population + (n + 1)
      omega
    · rw [hrefused] at failed
      cases failed
      exact population_eq

end ContestedHeap

/-! ## Pulls -/

namespace Operator

open ContestedHeap

/-- What a failed modification has written. -/
def Accounts (change : Modification) (s : ContestedHeap) (e : QueryError) (s' : ContestedHeap) :
    Prop :=
  match change with
  | .insert => s.Credits e s'
  | .delete => s.Deducts e s'

variable {table : String} {schema : Schema} {s s' : ContestedHeap} {e : QueryError}
  {input : Operator String}

theorem accounts_of_cause?_eq_none (change : Modification) (h : e.cause? = none)
    (population_eq : s'.heap.population = s.heap.population) : Accounts change s e s' := by
  cases change with
  | insert =>
    change s'.heap.population = s.heap.population + e.affected
    rw [QueryError.affected_of_cause?_eq_none h]
    exact population_eq
  | delete => exact deducts_of_cause?_eq_none h population_eq

theorem Sifting.removes (sifting : input.Sifting table schema) (target : String)
    (keeps : s.heap.Keeps table schema) :
    (input.forRows (removeRow target) 0 s).node.Sifting table schema
      ∧ ∀ e, (input.forRows (removeRow target) 0 s).answer = .error e →
        s.Deducts e (input.forRows (removeRow target) 0 s).store := by
  by_cases suited : input.Suited schema
  · have hrows := sifting.forRows_upholds (.inl suited) reads_removed (removeRow_upholds target)
      (removed_start keeps)
    refine ⟨hrows.node, fun e he ↦ ?_⟩
    have hends := hrows.ends
    rwa [he] at hends
  -- No row gets as far as to be removed, so nothing changes but the count of reads.
  · have harmless : ∀ e (n : Nat) s', e.cause? = none → s.HasRemoved table schema 0 s' →
        s.Deducts e s' := fun e _ s' he removed ↦
      deducts_of_cause?_eq_none he removed.population_eq
    have hrows : (input.forRows (removeRow target) 0 s).Upholds (Sifting table schema)
        (fun _ ↦ s.HasRemoved table schema 0) s.Deducts :=
      sifting.forRows_of_unsuited suited harmless (reads_removed.at 0) (removeRow target)
        (removed_start keeps)
    refine ⟨hrows.node, fun e he ↦ ?_⟩
    have hends := hrows.ends
    rwa [he] at hends

theorem Sifting.gathers (sifting : input.Sifting table schema) (keeps : s.heap.Keeps table schema) :
    (input.forRows gather [] s).Upholds (Sifting table schema)
      (fun _ s' ↦ s.Untouched table schema s') s.Credits :=
  sifting.forRows_upholds
    (.inr fun _ _ _ he untouched ↦ untouched.credits (QueryError.affected_of_cause?_eq_none he))
    reads_untouched (fun _ _ _ _ untouched ↦ untouched) (untouched_start keeps)

/-- A batch over a stack leaves a stack, and accounts for the rows it wrote when it fails. -/
theorem Sifted.writes (sifted : input.Sifted table schema) (b : Batch String)
    (keeps : s.heap.Keeps table schema) :
    (writeInput b input s).node.Sifted table schema
      ∧ ∀ e, (writeInput b input s).answer = .error e →
        Accounts b.change s e (writeInput b input s).store := by
  by_cases closed : input.look = .closed
  · have hrefused : writeInput b input s = ⟨.error (.notOpen input.closedLabel), input, s⟩ := by
      rw [writeInput]
      split
      · rw [forRows_of_closed closed]
      · rw [forRows_of_closed closed]
        rfl
    rw [hrefused]
    refine ⟨sifted, fun e he ↦ ?_⟩
    cases he
    exact accounts_of_cause?_eq_none b.change rfl rfl
  · have sifting : input.Sifting table schema := ⟨sifted, closed⟩
    rw [writeInput]
    cases b.change with
    | insert =>
      have hrows := sifting.gathers keeps
      have hends := hrows.ends
      dsimp only
      generalize input.forRows gather [] s = gathered at hrows hends ⊢
      obtain ⟨e | rows, input', s'⟩ := gathered
      · refine ⟨hrows.node.1, fun e' he ↦ ?_⟩
        cases he
        exact hends
      · refine ⟨hrows.node.1, fun e he ↦ ?_⟩
        exact credits_storeRows b.table hends.keeps hends.population_eq (Prod.ext he rfl)
    | delete =>
      obtain ⟨hnode, hfailed⟩ := sifting.removes b.table keeps
      refine ⟨hnode.1, fun e he ↦ hfailed e ?_⟩
      generalize input.forRows (removeRow b.table) 0 s = removed at he ⊢
      obtain ⟨e' | n, input', s'⟩ := removed
      · cases he
        rfl
      · cases he

/-- A pull leaves a modification over a stack, and accounts for the rows it wrote when it fails. -/
theorem Sifted.pulls (sifted : input.Sifted table schema) (b : Batch String)
    (keeps : s.heap.Keeps table schema) :
    (∃ b' input', ((modify b input).pull s).node = modify b' input' ∧ b'.change = b.change
        ∧ input'.Sifted table schema)
      ∧ (∀ e, ((modify b input).pull s).answer = .error e →
          Accounts b.change s e ((modify b input).pull s).store)
      ∧ (((modify b input).pull s).answer = .ok none → ((modify b input).pull s).store = s) := by
  rw [pull, forRows_modify]
  rcases hlook : b.look with _ | (_ | r) | _
  · refine ⟨⟨_, input, rfl, rfl, sifted⟩, fun e he ↦ ?_, fun _ ↦ rfl⟩
    cases he
    exact accounts_of_cause?_eq_none b.change rfl rfl
  · rw [Lookahead.resume]
    rcases b.done with _ | _
    · obtain ⟨hnode, hfailed⟩ := sifted.writes b keeps
      generalize writeInput b input s = written at hnode hfailed ⊢
      obtain ⟨e | n, input', s'⟩ := written
      · refine ⟨⟨_, input', rfl, rfl, hnode⟩, fun e' he ↦ ?_, fun he ↦ ?_⟩
        · cases he
          exact hfailed e rfl
        · cases he
      · refine ⟨⟨_, input', rfl, rfl, hnode⟩, fun e he ↦ ?_, fun he ↦ ?_⟩ <;> cases he
    · refine ⟨⟨_, input, rfl, rfl, sifted⟩, fun e he ↦ ?_, fun _ ↦ rfl⟩
      cases he
  · refine ⟨⟨_, input, rfl, rfl, sifted⟩, fun e he ↦ ?_, fun he ↦ ?_⟩ <;> cases he
  · refine ⟨⟨_, input, rfl, rfl, sifted⟩, fun e he ↦ ?_, fun _ ↦ rfl⟩
    cases he

/-! ## Requests -/

variable {op : Operator String} {change : Modification}

theorem Sifting.handsOn (sifting : op.Sifting table schema) (keeps : s.heap.Keeps table schema) :
    (op.pull s).node.Sifting table schema
      ∧ ∀ r, (op.pull s).answer = .ok (some r) → r.Conforms schema ∧ op.Suited schema := by
  by_cases suited : op.Suited schema
  · have hrow : (op.forRows takeFirst none s).Upholds (Sifting table schema)
        (fun row? s' ↦ s'.heap.Keeps table schema ∧ ∀ r, row? = some r → r.Conforms schema)
        fun _ _ ↦ True := by
      refine sifting.forRows_upholds (.inl suited)
        (reads_of_keeps (fun _ _ hinv ↦ hinv.1) (fun _ _ _ hinv ↦ hinv) fun _ _ _ _ _ ↦ trivial)
        (fun r _ s' conforms hinv ↦ ⟨hinv.1, fun r' hr' ↦ ?_⟩) ⟨keeps, nofun⟩
      cases hr'
      exact conforms
    refine ⟨hrow.node, fun r hr ↦ ⟨?_, suited⟩⟩
    have hends := hrow.ends
    rw [pull] at hr
    generalize op.forRows takeFirst none s = pulled at hr hends
    obtain ⟨e | last, op', s'⟩ := pulled
    · cases hr
    · exact hends.2 r (Except.ok.inj hr)
  · have hnone : (op.forRows takeFirst none s).Upholds (Sifting table schema)
        (fun row? s' ↦ s'.heap.Keeps table schema ∧ row? = none) fun _ _ ↦ True :=
      sifting.forRows_of_unsuited suited (fun _ _ _ _ _ ↦ trivial)
        (reads_of_keeps (fun _ _ hinv ↦ hinv.1) (fun _ _ _ hinv ↦ hinv) fun _ _ _ _ _ ↦ trivial)
        takeFirst ⟨keeps, rfl⟩
    refine ⟨hnone.node, fun r hr ↦ ?_⟩
    have hends := hnone.ends
    rw [pull] at hr
    generalize op.forRows takeFirst none s = pulled at hr hends
    obtain ⟨e | last, op', s'⟩ := pulled
    · cases hr
    · have hrow : last.value = some r := Except.ok.inj hr
      rw [hends.2] at hrow
      cases hrow

theorem Sifted.serve (sifted : op.Sifted table schema) (keeps : s.heap.Keeps table schema)
    (q : Request) : (op.serve s q).node.Sifted table schema := by
  have hpull : (op.pull s).node.Sifted table schema
      ∧ ∀ r, (op.pull s).answer = .ok (some r) →
        ((op.pull s).node.buffer r).Sifted table schema := by
    by_cases closed : op.look = .closed
    · rw [pull, forRows_of_closed closed]
      exact ⟨sifted, fun _ hr ↦ by cases hr⟩
    · obtain ⟨hnode, hrow⟩ := Sifting.handsOn ⟨sifted, closed⟩ keeps
      refine ⟨hnode.1, fun r hr ↦ ?_⟩
      obtain ⟨conforms, suited⟩ := hrow r hr
      exact (hnode.buffer conforms ((op.suited_forRows takeFirst none s).mpr suited)).1
  have hpulled : q.isPull = true → (op.serve s q).node.Sifted table schema := by
    intro hq
    rcases op.node_of_isPull s hq with hnode | ⟨r, hr, hnode⟩
    · exact hnode ▸ hpull.1
    · exact hnode ▸ hpull.2 r hr
  cases q with
  | opening => exact (sifted.openOn s).1
  | hasNext => exact hpulled rfl
  | next => exact hpulled rfl
  | rewinding => exact sifted.rewindOn s
  | closing => exact sifted.close

theorem Sifted.after (sifted : op.Sifted table schema)
    {history : List (Request × ContestedHeap)}
    (keeps : ∀ call ∈ history, call.2.heap.Keeps table schema) :
    (op.after history).Sifted table schema :=
  after_of_serve (fun _ _ q sifted keeps ↦ sifted.serve keeps q) sifted keeps

/-- A modification whose input is a stack of filters over the scan of a table. -/
def Modifies (change : Modification) (table : String) (schema : Schema) (op : Operator String) :
    Prop :=
  ∃ b input, op = modify b input ∧ b.change = change ∧ input.Sifted table schema

theorem Modifies.serve (modifies : op.Modifies change table schema)
    (keeps : s.heap.Keeps table schema) (q : Request) :
    (op.serve s q).node.Modifies change table schema := by
  obtain ⟨b, input, rfl, rfl, sifted⟩ := modifies
  obtain ⟨⟨b', input', hpull, hchange, sifted'⟩, -, -⟩ := sifted.pulls b keeps
  have hpulled : q.isPull = true →
      ((modify b input).serve s q).node.Modifies b.change table schema := by
    intro hq
    rcases (modify b input).node_of_isPull s hq with hnode | ⟨r, -, hnode⟩
    · exact ⟨b', input', hnode.trans hpull, hchange, sifted'⟩
    · exact ⟨_, input', hnode.trans (congrArg (buffer r) hpull), hchange, sifted'⟩
  cases q with
  | opening =>
    rw [Operator.serve, Operator.openOn]
    split
    · exact ⟨_, _, rfl, rfl, (sifted.openOn s).1⟩
    · exact ⟨_, _, rfl, rfl, sifted⟩
  | rewinding =>
    rw [Operator.serve, Operator.rewindOn]
    split
    · exact ⟨_, _, rfl, rfl, sifted.rewindOn s⟩
    · exact ⟨_, _, rfl, rfl, sifted⟩
  | closing => exact ⟨_, _, rfl, rfl, sifted.close⟩
  | hasNext => exact hpulled rfl
  | next => exact hpulled rfl

theorem Modifies.after (modifies : op.Modifies change table schema)
    {history : List (Request × ContestedHeap)}
    (keeps : ∀ call ∈ history, call.2.heap.Keeps table schema) :
    (op.after history).Modifies change table schema :=
  after_of_serve (fun _ _ q modifies keeps ↦ modifies.serve keeps q) modifies keeps

theorem Modifies.accounts (modifies : op.Modifies change table schema)
    (keeps : s.heap.Keeps table schema) {q : Request} (hpull : q.isPull = true)
    (failed : (op.serve s q).answer = .error e) : Accounts change s e (op.serve s q).store := by
  obtain ⟨b, input, rfl, rfl, sifted⟩ := modifies
  obtain ⟨-, hfailed, hnone⟩ := sifted.pulls b keeps
  rw [(modify b input).store_of_isPull s hpull]
  rcases (modify b input).pull_of_isPull s hpull failed with herror | ⟨hanswer, rfl⟩
  · exact hfailed e herror
  -- A modification without a further row has not turned to the storage.
  · exact accounts_of_cause?_eq_none b.change rfl (congrArg (·.heap.population) (hnone hanswer))

/-! ## The account -/

theorem sifted_build {ps : List Predicate} {s₀ s₁ : ContestedHeap}
    (built : (Plan.filters ps (.scan table)).build s₀ = (.ok input, s₁)) (schema : Schema) :
    input.Sifted table schema := by
  obtain ⟨schema', -, rfl⟩ := build_filters_scan built
  clear built
  induction ps with
  | nil => exact ⟨rfl, nofun, nofun⟩
  | cons p ps ih => exact ⟨ih, fun h ↦ absurd rfl h, nofun⟩

/-- **What a failed modification reports.** Take an insertion or a deletion over a stack of filters
on the scan of a table, after any requests to the stack and then any requests to the modification,
each of which finds a heap with the table in it and whatever refusals. If it fails when it is asked
for a row, then

* an insertion has stored as many rows as the failure reports;
* a deletion has removed as many rows as the failure reports, unless it is the failure of a read:
  then it has removed as many rows as it made writes, and reports none. -/
theorem failed_pull_accounts {ps : List Predicate} {source target : String} {schema : Schema}
    {change : Modification} {s₀ s₁ s₂ s₃ : ContestedHeap}
    (hinput : (Plan.filters ps (.scan source)).build s₀ = (.ok input, s₁))
    {before history : List (Request × ContestedHeap)}
    (hop : (Plan.modify change target (.operator (input.after before))).build s₂ = (.ok op, s₃))
    (keeps : ∀ call ∈ before ++ history, call.2.heap.Keeps source schema)
    (hs : s.heap.Keeps source schema) {q : Request} (hpull : q.isPull = true)
    (failed : ((op.after history).serve s q).answer = .error e) :
    match change, e with
    | .insert, e =>
      ((op.after history).serve s q).store.heap.population = s.heap.population + e.affected
    | .delete, .storage _ =>
      ((op.after history).serve s q).store.heap.population
        + (((op.after history).serve s q).store.writes.calls - s.writes.calls)
          = s.heap.population
    | .delete, e =>
      ((op.after history).serve s q).store.heap.population + e.affected = s.heap.population := by
  obtain ⟨input', tableSchema, hinput', -, -, rfl⟩ := build_modify hop
  cases hinput'
  have sifted := (sifted_build hinput schema).after fun call hcall ↦
    keeps call (List.mem_append_left _ hcall)
  have modifies : (modify ⟨change, target, tableSchema, false, .closed⟩
      (input.after before)).Modifies change source schema := ⟨_, _, rfl, rfl, sifted⟩
  have haccounts := (modifies.after fun call hcall ↦
    keeps call (List.mem_append_right _ hcall)).accounts hs hpull failed
  cases change with
  | insert => exact haccounts
  | delete => cases e <;> exact haccounts

def twoPages : ContestedHeap :=
  .ofHeap ((Heap.ofCapacity 1).run
    [.create "t" ⟨[⟨"n", .integer⟩]⟩, .insert "t" (.ofValues [.integer 1]),
      .insert "t" (.ofValues [.integer 2])]).2

/-- All writes but the first one are refused. -/
def twoPagesFull : ContestedHeap :=
  { twoPages with writes := .failing Outage.noRoom 1 }

/-- All reads but the first one are refused. -/
def twoPagesMisread : ContestedHeap :=
  { twoPages with reads := .after 1 }

theorem keeps_twoPages : twoPages.heap.Keeps "t" ⟨[⟨"n", .integer⟩]⟩ where
  reachable := ⟨1, _, rfl⟩
  few := by
    change 1 ≤ 2 ^ 32
    omega
  found := ⟨_, rfl, rfl⟩

def bothRows : Operator String :=
  .scan (.ofTable "t" ⟨[⟨"n", .integer⟩]⟩)

/-- The scan is opened and asked whether it has a row, which stays in its buffer. -/
def peeked : List (Request × ContestedHeap) :=
  [(.opening, twoPages), (.hasNext, twoPages)]

def clearing : Operator String :=
  .modify ⟨.delete, "t", ⟨[⟨"n", .integer⟩]⟩, false, .closed⟩ (bothRows.after peeked)

/-- A deletion whose second write is refused has removed one row, and says so. -/
theorem failed_pull_accounts_second_write :
    (Plan.filters [] (.scan "t")).build twoPages = (.ok bothRows, twoPages)
      ∧ (Plan.modify .delete "t" (.operator (bothRows.after peeked))).build twoPages
        = (.ok clearing, twoPages)
      ∧ ((clearing.after [(.opening, twoPages)]).serve twoPagesFull .hasNext).answer
        = .error (.modificationFailed 1 Outage.noRoom)
      ∧ ((clearing.after [(.opening, twoPages)]).serve twoPagesFull
          .hasNext).store.heap.population + 1
        = twoPagesFull.heap.population := by
  have hscan : (Plan.filters [] (.scan "t")).build twoPages = (.ok bothRows, twoPages) := rfl
  have hclearing : (Plan.modify .delete "t" (.operator (bothRows.after peeked))).build twoPages
      = (.ok clearing, twoPages) := rfl
  have hfound : ∀ call ∈ peeked ++ [(.opening, twoPages)], call.2 = twoPages := by
    simp [peeked]
  have hfailed : ((clearing.after [(.opening, twoPages)]).serve twoPagesFull .hasNext).answer
      = .error (.modificationFailed 1 Outage.noRoom) := rfl
  refine ⟨hscan, hclearing, hfailed,
    failed_pull_accounts (s := twoPagesFull) hscan hclearing (fun call hcall ↦ ?_) keeps_twoPages
      rfl hfailed⟩
  rw [hfound call hcall]
  exact keeps_twoPages

/-- A deletion that removes the row of the first page and cannot read the second page fails with the
refusal of the read, and does not report the row. -/
theorem removed_row_goes_unreported :
    ∃ (deletion opened : Operator String) (s s' : ContestedHeap),
      (Plan.modify .delete "t" (.scan "t")).build twoPagesMisread = (.ok deletion, twoPagesMisread)
        ∧ deletion.openOn twoPagesMisread = ⟨.ok (), opened, s⟩
        ∧ (opened.serve s .hasNext).answer = .error (.storage Outage.outOfService)
        ∧ (opened.serve s .hasNext).store = s'
        ∧ (QueryError.storage Outage.outOfService).affected = 0
        ∧ s.heap.population = 2 ∧ s'.heap.population = 1 :=
  ⟨_, _, _, _, rfl, rfl, rfl, rfl, rfl, rfl, rfl⟩

end Operator

end QueryEngine
