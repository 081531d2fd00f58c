import QueryEngine.Proofs.Operator.Cursor

/-!
# Histories of an operator

`Operator.after` is the operator that requests leave behind. Every request finds a storage of its
own, because others may write to the storage and bring it to fail between two requests. So what
holds after every history holds in every state that an operator gets into, those included that
failures leave in the middle of a request. A property that every request keeps is kept by every
history (`Operator.after_of_serve`).

Two requests are for a row, and both are a pull: `hasNext` puts the row into the buffer, and `next`
hands it out.
-/

namespace QueryEngine

def Request.isPull : Request → Bool
  | hasNext | next => true
  | opening | rewinding | closing => false

namespace Operator

variable {σ τ : Type} [Storage σ τ]

/-! ## Requests for a row -/

section

variable (op : Operator τ) (s : σ) {q : Request}

/-- A request for a row leaves what the pull leaves, or puts the row into the buffer of that. -/
theorem node_of_isPull (h : q.isPull = true) :
    (op.serve s q).node = (op.pull s).node
      ∨ ∃ r, (op.pull s).answer = .ok (some r)
        ∧ (op.serve s q).node = (op.pull s).node.buffer r := by
  cases q with
  | hasNext =>
    rw [serve, hasNext]
    rcases op.pull s with ⟨e | (_ | r), op', s'⟩
    · exact .inl rfl
    · exact .inl rfl
    · exact .inr ⟨r, rfl, rfl⟩
  | next =>
    rw [serve, next]
    rcases op.pull s with ⟨e | (_ | r), op', s'⟩ <;> exact .inl rfl
  | opening | rewinding | closing => cases h

theorem store_of_isPull (h : q.isPull = true) : (op.serve s q).store = (op.pull s).store := by
  cases q with
  | hasNext =>
    rw [serve, hasNext]
    rcases op.pull s with ⟨e | (_ | r), op', s'⟩ <;> rfl
  | next =>
    rw [serve, next]
    rcases op.pull s with ⟨e | (_ | r), op', s'⟩ <;> rfl
  | opening | rewinding | closing => cases h

theorem serve_of_pull_error (h : q.isPull = true) {e : QueryError}
    (failed : (op.pull s).answer = .error e) :
    (op.serve s q).answer = .error e ∧ (op.serve s q).node = (op.pull s).node := by
  cases q with
  | hasNext =>
    rw [serve, hasNext]
    generalize op.pull s = pulled at failed ⊢
    rcases pulled with ⟨e' | row, op', s'⟩ <;> cases failed
    exact ⟨rfl, rfl⟩
  | next =>
    rw [serve, next]
    generalize op.pull s = pulled at failed ⊢
    rcases pulled with ⟨e' | row, op', s'⟩ <;> cases failed
    exact ⟨rfl, rfl⟩
  | opening | rewinding | closing => cases h

theorem pull_of_isPull (h : q.isPull = true) {e : QueryError}
    (failed : (op.serve s q).answer = .error e) :
    (op.pull s).answer = .error e
      ∨ (op.pull s).answer = .ok none ∧ e = .noMoreRows op.rowLabel := by
  cases q with
  | hasNext =>
    rw [serve, hasNext] at failed
    generalize op.pull s = pulled at failed ⊢
    rcases pulled with ⟨e' | (_ | r), op', s'⟩ <;> cases failed
    exact .inl rfl
  | next =>
    rw [serve, next] at failed
    generalize op.pull s = pulled at failed ⊢
    rcases pulled with ⟨e' | (_ | r), op', s'⟩ <;> cases failed
    · exact .inl rfl
    · exact .inr ⟨rfl, rfl⟩
  | opening | rewinding | closing => cases h

end

/-! ## Histories -/

theorem bare_serve (op : Operator τ) (s : σ) (q : Request) :
    (op.serve s q).node.bare = op.bare := by
  have hpulled : q.isPull = true → (op.serve s q).node.bare = op.bare := by
    intro hq
    have hpull : (op.pull s).node.bare = op.bare := op.bare_forRows takeFirst none s
    rcases op.node_of_isPull s hq with hnode | ⟨r, -, hnode⟩
    · rw [hnode, hpull]
    · rw [hnode, bare_buffer, hpull]
  cases q with
  | opening => exact op.bare_openOn s
  | hasNext => exact hpulled rfl
  | next => exact hpulled rfl
  | rewinding => exact op.bare_rewindOn s
  | closing => exact op.bare_close

theorem bare_serveAll (op : Operator τ) (s : σ) (requests : List Request) :
    (op.serveAll s requests).2.1.bare = op.bare := by
  induction requests generalizing op s with
  | nil => rfl
  | cons q rest ih => exact (ih _ _).trans (op.bare_serve s q)

/-- The operator after requests, with the storages that they find. -/
def after (op : Operator τ) : List (Request × σ) → Operator τ
  | [] => op
  | (q, s) :: rest => (op.serve s q).node.after rest

/-- What every request keeps, as long as it finds a storage of some kind, a history of requests
keeps. -/
theorem after_of_serve {P : Operator τ → Prop} {Q : σ → Prop}
    (step : ∀ op s q, P op → Q s → P (op.serve s q).node) {op : Operator τ} (hop : P op)
    {history : List (Request × σ)} (found : ∀ call ∈ history, Q call.2) :
    P (op.after history) := by
  induction history generalizing op with
  | nil => exact hop
  | cons call rest ih =>
    exact ih (step op call.2 call.1 hop (found call List.mem_cons_self))
      fun call' hcall ↦ found call' (List.mem_cons_of_mem _ hcall)

theorem bare_after (op : Operator τ) (history : List (Request × σ)) :
    (op.after history).bare = op.bare :=
  after_of_serve (P := fun op' ↦ op'.bare = op.bare) (Q := fun _ ↦ True)
    (fun op' s q hbare _ ↦ (op'.bare_serve s q).trans hbare) rfl fun _ _ ↦ trivial

def answers (op : Operator τ) : List (Request × σ) → List (Request × Except QueryError Response)
  | [] => []
  | (q, s) :: rest => (q, (op.serve s q).answer) :: (op.serve s q).node.answers rest

end Operator

end QueryEngine
