import DCache.Cache.Schedule

/-! The keys that a move marks dirty: it has read each of them, and has sent it, before it marks
it. -/
namespace DCache.CacheThreads
open DCache.Lib
open CacheServer (Net Request moveMsg)

/-- The thread may mark the key without a step that meets `cut`. -/
def MarksWithout (cut : Op → Prop) (key : Str) (c : Prog) : Prop :=
  c.May (fun op => op = .setDirty .lru key) (fun op _ => cut op)

/-- The thread may mark the key without reading it again. -/
abbrev Pending (key : Str) (c : Prog) : Prop := MarksWithout (fun op => op = .get .lru key) key c

/-- The step is a `send` of the key that succeeds. -/
def Sends (key : Str) (op : Op) : Prop := ∃ cfd, op = .sysCall (.send cfd (moveMsg key) true)

/-- A move does not mark the key without such a step. -/
def Cuts (cut : Op → Prop) (key : Str) : Prop :=
  cut (.get .lru key) ∨ ∀ cfd, cut (.sysCall (.send cfd (moveMsg key) true))

theorem cuts_get (key : Str) : Cuts (fun op => op = .get .lru key) key := Or.inl rfl

theorem cuts_sends (key : Str) : Cuts (Sends key) key := Or.inr fun cfd => ⟨cfd, rfl⟩

section Codes
variable {cut : Op → Prop} {key : Str}

theorem not_marks_call {op : Op} {next : op.Res → Prog} (hop : op ≠ .setDirty .lru key)
    (h : ∀ r, ¬ cut op → ¬ MarksWithout cut key (next r)) : ¬ MarksWithout cut key (.call op next) :=
  Code.not_may_call hop h

theorem not_marks_done : ¬ MarksWithout cut key .done := Code.not_may_done

theorem not_marks_leave (t : Table) : ¬ MarksWithout cut key (leave t) :=
  not_marks_call (by simp) fun _ _ => not_marks_done

theorem not_marks_locked (t : Table) (key' value : Str) :
    ¬ MarksWithout cut key (locked t key' value) :=
  only_locked.not_may fun op hop => by cases hop <;> simp

theorem not_marks_handle (request : Request) (sent : Bool) :
    ¬ MarksWithout cut key (handle request sent) := by
  have hset : ∀ t, ¬ MarksWithout cut key (setIn t request.key request.value) := fun t =>
    only_setIn.not_may fun op hop => by cases hop <;> simp
  have hget : ∀ t, ¬ MarksWithout cut key (getFrom t request.key request.cfd sent) := fun t =>
    only_getFrom.not_may fun op hop => by cases hop <;> simp
  unfold handle
  split_ifs
  · exact hset .lru
  · exact hget .lru
  · exact hset .lruBackup
  · exact hget .lruBackup
  · exact not_marks_call (by simp) fun _ _ => not_marks_done

theorem not_marks_update (net : Net) (sent : ℕ → Bool) (ipPort : Str) :
    ¬ MarksWithout cut key (update net sent ipPort) :=
  only_update.not_may fun op hop => by cases hop <;> simp

theorem not_marks_release (state : ℤ) : ¬ MarksWithout cut key (release state) :=
  only_release.not_may fun op hop => by cases hop <;> simp

theorem not_marks_endMove : ¬ MarksWithout cut key endMove :=
  not_marks_call (by simp) fun state _ => not_marks_release state

theorem not_marks_handOff {key' : Str} {more : Prog} (net : Net) (newAddr : Str)
    (hkey : key' = key → ∀ cfd, cut (.sysCall (.send cfd (moveMsg key) true)))
    (hmore : ¬ MarksWithout cut key more) :
    ¬ MarksWithout cut key (handOff net key' newAddr more) := by
  have hsend : ¬ MarksWithout cut key (sendKey net key' more) := by
    refine not_marks_call (by simp) fun _ hcut => ?_
    by_cases hs : net.sent = true
    · rw [hs] at hcut
      rw [if_pos hs]
      refine not_marks_call ?_ fun _ _ => hmore
      intro h
      obtain rfl : key' = key := by simpa using h
      exact hcut (hkey rfl _)
    · rw [if_neg hs]
      exact not_marks_endMove
  unfold handOff
  split_ifs
  · exact not_marks_call (by simp) fun _ _ => not_marks_call (by simp) fun _ _ => hsend
  · exact not_marks_call (by simp) fun _ _ => not_marks_call (by simp) fun _ _ => not_marks_endMove
  · exact hsend

/-- Before a key is marked, it is read and sent. -/
theorem not_marks_moveLoop (hcut : Cuts cut key) (localAddr : Str) (net : ℕ → Net)
    (keys : List Str) (n : ℕ) : ¬ MarksWithout cut key (moveLoop localAddr net n keys) := by
  induction keys generalizing n with
  | nil => exact not_marks_endMove
  | cons key' keys ih =>
    refine not_marks_call (by simp) fun _ _ => not_marks_call (by simp) fun (present : Bool) _ => ?_
    cases present with
    | false => exact ih (n + 1)
    | true =>
      refine not_marks_call (by simp) fun _ hget =>
        not_marks_call (by simp) fun (newAddr : Str) _ => ?_
      by_cases hl : newAddr = localAddr
      · simp only [hl, ne_eq, not_true_eq_false, if_false]
        exact ih (n + 1)
      · simp only [ne_eq, hl, not_false_eq_true, if_true]
        refine not_marks_handOff _ _ (fun hk cfd => ?_) (ih (n + 1))
        subst hk
        exact (hcut.resolve_left hget) cfd

theorem not_marks_takeKeys (hcut : Cuts cut key) (localAddr : Str) (net : ℕ → Net) (state : ℤ) :
    ¬ MarksWithout cut key (takeKeys localAddr net state) :=
  not_marks_call (by simp) fun (_ : List Str) _ =>
    not_marks_call (by simp) fun _ _ => not_marks_moveLoop hcut _ _ _ _

theorem not_marks_move (hcut : Cuts cut key) (localAddr : Str) (net : ℕ → Net) :
    ¬ MarksWithout cut key (move localAddr net) :=
  not_marks_call (by simp) fun state _ => not_marks_takeKeys hcut localAddr net state

theorem not_marks_of_starts (hcut : Cuts cut key) {e : Event} {s s' : CacheServer} {i : ℕ}
    {c : Prog} (h : starts s e = some (i, c, s')) :
    ¬ MarksWithout cut key c := by
  rcases starts_cases h with ⟨request, rest, sent, -, -, rfl, -⟩ | ⟨net, -, rfl, -⟩ |
    ⟨net, -, rfl, -⟩ | ⟨net, sent, ipPort, -, rfl, -⟩
  · exact not_marks_handle request sent
  · exact not_marks_move hcut _ net
  · exact not_marks_move hcut _ net
  · exact not_marks_update net sent ipPort

end Codes
end DCache.CacheThreads
