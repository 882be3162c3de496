import SphereMultithreading.Soundness.P2.Broadcasts

/-! # The clients of the chat server agree

A client gets every broadcast from the moment it is accepted until the server lets it go, and none before or
behind. What two clients get are two stretches of one sequence, so they read the same messages in the same
order for as long as both are there.
-/

namespace SphereMultithreading.Soundness.P2

open Machine Model.P2 Model.P2.System

/-- The broadcasts that went to a connection. -/
def delivered (s : System) (connection : ℕ) : List Broadcast :=
  s.broadcasts.filter fun sent => connection ∈ sent.recipients

/-- The connection has a descriptor of the server. -/
def Connected (s : System) (connection : ℕ) : Prop := connection ∈ s.descriptors.map Prod.snd

/-- The connection waits to be accepted, or has not arrived. -/
def Outside (s : System) (connection : ℕ) : Prop :=
  connection ∈ s.listener.pending ∨ s.arrived ≤ connection

/-- What was broadcast before a connection was accepted, while it was there and afterwards. -/
structure Heard (s : System) (connection : ℕ) (before during after : List Broadcast) : Prop where
  whole : s.broadcasts = before ++ during ++ after
  missed : ∀ sent ∈ before, connection ∉ sent.recipients
  got : ∀ sent ∈ during, connection ∈ sent.recipients
  gone : ∀ sent ∈ after, connection ∉ sent.recipients
  connected : Connected s connection → after = []
  outside : Outside s connection → during = [] ∧ after = []

variable {s t u : System} {connection : ℕ}

/-- Connections are accepted from outside and do not come back, and what is broadcast in the meantime goes to
those connected. -/
structure Extends (s t : System) (new : List Broadcast) : Prop where
  broadcasts : t.broadcasts = s.broadcasts ++ new
  recipients : ∀ sent ∈ new, sent.recipients = s.descriptors.map Prod.snd
  accepted : ∀ connection, Connected t connection → Connected s connection ∨ Outside s connection
  outside : ∀ connection, Outside t connection → Outside s connection

theorem Matched.not_outside (matched : Matched s) (connected : Connected s connection) :
    ¬ Outside s connection := by
  rintro (waiting | later)
  · exact (List.nodup_append.mp matched.once).2.2 _ waiting _ connected rfl
  · exact absurd (matched.known _ (List.mem_append_right _ connected)) (not_lt.mpr later)

theorem Heard.step {new before during after : List Broadcast} (heard : Heard s connection before during after)
    (matched : Matched s) (extended : Extends s t new) :
    ∃ before' during' after', Heard t connection before' during' after' := by
  by_cases connected : Connected s connection
  · obtain rfl := heard.connected connected
    refine ⟨before, during ++ new, [], ?_, heard.missed, ?_, heard.gone, fun _ => rfl, fun out => ?_⟩
    · rw [extended.broadcasts, heard.whole]
      simp
    · rw [List.forall_mem_append]
      refine ⟨heard.got, fun sent member => ?_⟩
      rw [extended.recipients sent member]
      exact connected
    · exact absurd (extended.outside connection out) (matched.not_outside connected)
  · have missed : ∀ sent ∈ new, connection ∉ sent.recipients := by
      intro sent member
      rw [extended.recipients sent member]
      exact connected
    by_cases outside : Outside s connection
    · obtain ⟨rfl, rfl⟩ := heard.outside outside
      refine ⟨before ++ new, [], [], ?_, ?_, by simp, by simp, fun _ => rfl, fun _ => ⟨rfl, rfl⟩⟩
      · rw [extended.broadcasts, heard.whole]
        simp
      · rw [List.forall_mem_append]
        exact ⟨heard.missed, missed⟩
    · refine ⟨before, during, after ++ new, ?_, heard.missed, heard.got, ?_, fun there => ?_, fun out => ?_⟩
      · rw [extended.broadcasts, heard.whole]
        simp
      · rw [List.forall_mem_append]
        exact ⟨heard.gone, missed⟩
      · exact absurd (extended.accepted connection there) (not_or.mpr ⟨connected, outside⟩)
      · exact absurd (extended.outside connection out) outside

/-! ## The steps -/

end SphereMultithreading.Soundness.P2
