import QueryEngine.Operator.Plan
import QueryEngine.Proofs.Operator.Walk

/-!
# Sweeps

A sweep visits the rows of a table with a visitor that may change the storage while the table is
read. What holds during a sweep is an invariant of the rows visited so far, of the running value and
of the storage. Every visit has to keep it or to fail in a given way, and every page has to be read,
in whatever storage the visits before it have left, as the next of given pages
(`visitPages_proceeds`).

## Stacks of filters

Filters over an operator hand the visitor down, each behind the guard of its predicate, and the
operator visits its rows with what arrives (`Operator.forRows_filters`).
-/

namespace QueryEngine

variable {σ τ α : Type}

/-! ## The rule -/

/-- The visits went on and the invariant holds, or they failed in the given way. -/
def Proceeds (inv : α → σ → Prop) (fails : QueryError → σ → Prop) :
    Except QueryError (ForInStep α) → σ → Prop
  | .ok (.yield a), s => inv a s
  | .ok (.done _), _ => False
  | .error e, s => fails e s

/-- From rows that were visited to the next row of all rows, the visitor keeps the invariant or
fails. -/
def Visitor.Proceeds (visit : Visitor σ α) (all : List Row) (inv : List Row → α → σ → Prop)
    (fails : QueryError → σ → Prop) : Prop :=
  ∀ seen r rest a s, seen ++ r :: rest = all → inv seen a s →
    QueryEngine.Proceeds (inv (seen ++ [r])) fails (visit r a s).1 (visit r a s).2

variable {visit : Visitor σ α} {all : List Row} {inv : List Row → α → σ → Prop}
  {fails : QueryError → σ → Prop}

theorem visitRows_proceeds (step : visit.Proceeds all inv fails) {rows seen rest : List Row} {a : α}
    {s : σ} (hall : seen ++ (rows ++ rest) = all) (hinv : inv seen a s) :
    Proceeds (inv (seen ++ rows)) fails (visitRows visit rows a s).answer
      (visitRows visit rows a s).store := by
  induction rows generalizing seen a s with
  | nil => simpa [visitRows, Proceeds] using hinv
  | cons r rows ih =>
    have hstep := step seen r (rows ++ rest) a s hall hinv
    rw [visitRows]
    rcases hvisit : visit r a s with ⟨e | ⟨a'⟩ | ⟨a'⟩, s'⟩
    · rwa [hvisit] at hstep
    · rw [hvisit] at hstep
      exact hstep.elim
    · rw [hvisit] at hstep
      have hall' : seen ++ [r] ++ (rows ++ rest) = all := by
        rw [← hall]
        simp
      have hrest := ih hall' hstep
      rwa [List.append_assoc] at hrest

/-- If pages are read as given, the sweep over the pages keeps the invariant or fails. -/
theorem visitPages_proceeds [Storage σ τ] (table : τ) {pages : List (List Row)}
    (step : visit.Proceeds pages.flatten inv fails)
    (read : ∀ (p : Nat) rows a s, pages[p]? = some rows → inv (pages.take p).flatten a s →
      ∃ s', Storage.readPage table (UInt32.ofNat p) s = (.ok rows, s')
        ∧ inv (pages.take p).flatten a s')
    (next : Nat) {a : α} {s : σ} (hinv : inv (pages.take next).flatten a s) :
    Proceeds (inv pages.flatten) fails
      (visitPages table visit (pages.length - next) next a s).answer
      (visitPages table visit (pages.length - next) next a s).store := by
  induction hleft : pages.length - next generalizing next a s with
  | zero =>
    rw [List.take_of_length_le (by omega)] at hinv
    exact hinv
  | succ left ih =>
    have hlt : next < pages.length := by omega
    have hnext := List.getElem?_eq_getElem hlt
    obtain ⟨s', hread, hinv'⟩ := read next _ a s hnext hinv
    have hsplit : (pages.take next).flatten ++ (pages[next] ++ (pages.drop (next + 1)).flatten)
        = pages.flatten := by
      rw [← List.flatten_cons, ← List.drop_eq_getElem_cons hlt, ← List.flatten_append,
        List.take_append_drop]
    have hrows := visitRows_proceeds step hsplit hinv'
    have htake : (pages.take next).flatten ++ pages[next] = (pages.take (next + 1)).flatten := by
      rw [List.take_succ_eq_append_getElem hlt, List.flatten_append]
      simp
    rw [htake] at hrows
    rw [visitPages, hread]
    dsimp only
    rcases hvisited : visitRows visit pages[next] a s' with ⟨e | ⟨a'⟩ | ⟨a'⟩, rest, s''⟩
    · rwa [hvisited] at hrows
    · rw [hvisited] at hrows
      exact hrows.elim
    · rw [hvisited] at hrows
      exact ih (next + 1) hrows (by omega)

/-! ## Scans -/

namespace Scan

def start (table : τ) (schema : Schema) (pageCount : Nat) : Scan τ :=
  ⟨table, schema, pageCount, 0, [], .ready none⟩

theorem forRows_start [Storage σ τ] (table : τ) (schema : Schema) (pageCount : Nat)
    (visit : Visitor σ α) (a : α) (s : σ) :
    ∃ c : Scan τ, (start table schema pageCount).forRows visit a s
        = ⟨(visitPages table visit pageCount 0 a s).answer, c,
          (visitPages table visit pageCount 0 a s).store⟩
      ∧ c.table = table ∧ c.schema = schema
      ∧ c.look = .after (visitPages table visit pageCount 0 a s).answer :=
  ⟨_, rfl, rfl, rfl, rfl⟩

theorem reset_eq [Storage σ τ] (c : Scan τ) {s s' : σ} {n : Nat}
    (hcount : Storage.pageCount c.table s = (.ok n, s')) :
    Scan.reset { c with look := .ready none } s = ⟨.ok (), start c.table c.schema n, s'⟩ := by
  rw [reset, hcount]
  rfl

variable [Storage σ τ] {c : Scan τ} {s s' : σ} {n : Nat}

theorem openOn_eq (closed : c.look = .closed)
    (hcount : Storage.pageCount c.table s = (.ok n, s')) :
    (Operator.scan c).openOn s = ⟨.ok (), .scan (start c.table c.schema n), s'⟩ := by
  rw [Operator.openOn, closed, Lookahead.isClosed, if_pos rfl, reset_eq c hcount]
  rfl

theorem rewindOn_eq (isOpen : c.look ≠ .closed)
    (hcount : Storage.pageCount c.table s = (.ok n, s')) :
    (Operator.scan c).rewindOn s = ⟨.ok (), .scan (start c.table c.schema n), s'⟩ := by
  rw [Operator.rewindOn, Lookahead.rewound_of_open _ isOpen]
  dsimp only
  rw [reset_eq c hcount]
  rfl

end Scan

/-! ## Stacks of filters -/

/-- Filters with the given predicates over a plan, the first one outermost. -/
def Plan.filters (ps : List Predicate) (plan : Plan τ) : Plan τ :=
  ps.foldr .filter plan

def Predicate.selectAll (ps : List Predicate) (rows : List Row) : List Row :=
  rows.filter fun r ↦ ∀ p ∈ ps, p.holds r = .ok true

/-- The visitor behind the guards of all predicates. -/
def Predicate.guards (ps : List Predicate) (visit : Visitor σ α) : Visitor σ α :=
  ps.foldl (fun visit p ↦ p.guard visit) visit

theorem Predicate.guards_eq {ps : List Predicate} {r : Row}
    (evaluates : ∀ p ∈ ps, ∃ b, p.holds r = .ok b) (visit : Visitor σ α) (a : α) (s : σ) :
    guards ps visit r a s
      = if ∀ p ∈ ps, p.holds r = .ok true then visit r a s else (.ok (.yield a), s) := by
  induction ps generalizing visit with
  | nil => simp [guards]
  | cons p ps ih =>
    have hrest := ih (fun q hq ↦ evaluates q (List.mem_cons_of_mem _ hq)) (p.guard visit)
    rw [guards, List.foldl_cons, ← guards, hrest]
    obtain ⟨b, hb⟩ := evaluates p List.mem_cons_self
    rw [guard, hb]
    cases b with
    | true => simp [hb]
    | false => simp [hb]

namespace Operator

def filters (look : Lookahead) (ps : List Predicate) (input : Operator τ) : Operator τ :=
  ps.foldr (filter · look ·) input

variable [Storage σ τ]

theorem build_filters (ps : List Predicate) (plan : Plan τ) (s : σ) :
    (plan.filters ps).build s = ((plan.build s).1.map (filters .closed ps), (plan.build s).2) := by
  induction ps with
  | nil =>
    change plan.build s = _
    rcases plan.build s with ⟨e | op, s'⟩ <;> rfl
  | cons p ps ih =>
    change (Plan.filter p (plan.filters ps)).build s = _
    rw [Plan.build, ih]
    rcases plan.build s with ⟨e | op, s'⟩ <;> rfl

theorem build_filters_scan {ps : List Predicate} {table : τ} {s s' : σ} {op : Operator τ}
    (built : (Plan.filters ps (.scan table)).build s = (.ok op, s')) :
    ∃ schema, Storage.tableSchema s table = .ok schema
      ∧ op = filters .closed ps (scan (.ofTable table schema)) := by
  rw [build_filters, Plan.build] at built
  rcases hschema : Storage.tableSchema s table with e | schema
  · rw [hschema] at built
    cases built
  · rw [hschema] at built
    cases built
    exact ⟨schema, rfl, rfl⟩

omit [Storage σ τ] in
theorem bare_filters (look : Lookahead) (ps : List Predicate) (input : Operator τ) :
    (filters look ps input).bare = filters .closed ps input.bare := by
  induction ps with
  | nil => rfl
  | cons p ps ih => exact congrArg (filter p .closed) ih

theorem openOn_filters (ps : List Predicate) (input : Operator τ) (s : σ) :
    (filters .closed ps input).openOn s
      = (input.openOn s).mapNode (filters (.ready none) ps) := by
  induction ps with
  | nil => rfl
  | cons p ps ih =>
    change (filter p .closed (filters .closed ps input)).openOn s = _
    rw [openOn, Lookahead.isClosed, if_pos rfl, ih]
    rfl

theorem rewindOn_filters {look : Lookahead} (isOpen : look ≠ .closed) (ps : List Predicate)
    (input : Operator τ) (s : σ) :
    (filters look ps input).rewindOn s
      = (input.rewindOn s).mapNode (filters (.ready none) ps) := by
  induction ps with
  | nil => rfl
  | cons p ps ih =>
    change (filter p look (filters look ps input)).rewindOn s = _
    rw [rewindOn, Lookahead.rewound_of_open _ isOpen, ih]
    rfl

/-- The filters hand the guarded visitor down and end as the traversal of their input does. -/
theorem forRows_filters (ps : List Predicate) (input : Operator τ) (visit : Visitor σ α) (a : α)
    (s : σ) :
    (filters (.ready none) ps input).forRows visit a s
      = ⟨(input.forRows (Predicate.guards ps visit) a s).answer,
          filters (.after (input.forRows (Predicate.guards ps visit) a s).answer) ps
            (input.forRows (Predicate.guards ps visit) a s).node,
          (input.forRows (Predicate.guards ps visit) a s).store⟩ := by
  induction ps generalizing visit with
  | nil => rfl
  | cons p ps ih =>
    change (filter p (.ready none) (filters (.ready none) ps input)).forRows visit a s = _
    rw [forRows, Lookahead.resume, ih (p.guard visit)]
    rfl

end Operator

end QueryEngine
