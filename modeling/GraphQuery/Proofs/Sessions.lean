import GraphQuery.Proofs.Purity
import GraphQuery.Rewrite.Session
/-!
# How computations in a session succeed

A computation in a session gives a value and leaves the session in another state, or it does not.
Selections in a session succeed if they do on an evaluator that has done nothing before.
-/

namespace GraphQuery

namespace SessionM

variable {α β : Type} {s s₁ s' : Session}

/-- In a session, the computation succeeds with a value and leaves another state. -/
def Gives (x : SessionM α) (s : Session) (a : α) (s' : Session) : Prop :=
  x.run s = some (.ok a, s')

/-- A computation gives one value at most. -/
theorem Gives.unique {x : SessionM α} {a b : α} {s₂ : Session} (gives : x.Gives s a s₁)
    (gives' : x.Gives s b s₂) : a = b := by
  have same := gives.symm.trans gives'
  cases same
  rfl

/-- A run that is seen to succeed gives a value of which holds what else is seen. -/
theorem exists_gives_of_seen {γ : Type} {x : SessionM α} {look : α → γ} {c : γ}
    (seen : (x.run s).map (fun p => p.1.toOption.map look) = some (some c)) :
    ∃ a s', x.Gives s a s' ∧ look a = c := by
  obtain ⟨⟨r, s'⟩, ran, looks⟩ := Option.map_eq_some_iff.mp seen
  cases r with
  | error => cases looks
  | ok a => exact ⟨a, s', ran, Option.some.inj looks⟩

theorem gives_pure (a : α) (s : Session) : (pure a : SessionM α).Gives s a s := rfl

theorem Gives.bind {x : SessionM α} {f : α → SessionM β} {a : α} {b : β} (first : x.Gives s a s₁)
    (second : (f a).Gives s₁ b s') : (x >>= f).Gives s b s' := by
  change (x.run s >>= fun p => (ExceptT.bindCont f p.1) p.2) = some (.ok b, s')
  rw [first]
  exact second

/-- A composed computation succeeds through what its first part gives. -/
theorem Gives.of_bind {x : SessionM α} {f : α → SessionM β} {b : β}
    (gives : (x >>= f).Gives s b s') : ∃ a s₁, x.Gives s a s₁ ∧ (f a).Gives s₁ b s' := by
  change (x.run s >>= fun p => (ExceptT.bindCont f p.1) p.2) = some (.ok b, s') at gives
  obtain ⟨⟨outcome, s₁⟩, first, second⟩ := Option.bind_eq_some_iff.mp gives
  cases outcome with
  | error e => cases second
  | ok a => exact ⟨a, s₁, first, second⟩

theorem Gives.of_pure {a b : α} (gives : (pure a : SessionM α).Gives s b s') : b = a := by
  cases gives
  rfl

theorem gives_freshNode (s : Session) :
    Session.freshNode.Gives s s.nextNode { s with nextNode := s.nextNode + 1 } := rfl

theorem gives_freshQuery (s : Session) :
    Session.freshQuery.Gives s s.nextQuery { s with nextQuery := s.nextQuery + 1 } := rfl

theorem gives_report (e : Event) (s : Session) :
    (Session.report e).Gives s () { s with events := s.events.push e } := rfl

theorem gives_ofOutcome (a : α) (s : Session) :
    (ofOutcome (.ok a : Except Error α) : SessionM α).Gives s a s := rfl

theorem gives_select {fuel : Nat} {q : Query} {start stop : Node} {items found : ItemSet}
    {ev : Evaluator}
    (ends : (Evaluator.select fuel q start stop items).Ends (.fresh true) (.ok found) ev)
    (s : Session) : (Session.select fuel q start stop items).Gives s found
      { s with events := s.events ++ ev.events } := by
  have ends : (Evaluator.select fuel q start stop items).run {} = some (.ok found, ev) := ends
  unfold Session.select
  rw [ends]
  rfl

end SessionM

end GraphQuery
