import DCache.LRU.Inclusion
import DCache.Cache.Server

/-! What a larger `lru_size` changes for the clients of a server on which nothing is moved: some reads
that found nothing find their value. -/
namespace DCache.CacheServer
open DCache.Lib DCache.LRU

/-- What a request does to the table, and the text that answers it. -/
def request (c : Cache Str Str) : Access Str Str → Option (Str × Cache Str Str)
  | .set key value => some ([], store c key value)
  | .read key => lookup c key

/-- The text that answers an access. -/
def answer : Access Str Str → Option Str → Str
  | .set _ _, _ => []
  | .read _, none => Code.dataNotExist
  | .read _, some value => cstr (Code.getSuccess ++ [newline] ++ value)

/-- Nothing is dirty. -/
def Clean (c : Cache Str Str) : Prop := ∀ e ∈ c.entries, e.dirty = false

section Requests
variable {c c' : Cache Str Str}

theorem Clean.isDirty (h : Clean c) (key : Str) : c.isDirty key = false := by
  apply Bool.eq_false_iff.mpr
  intro hd
  obtain ⟨e, he, hdirty⟩ := (c.isDirty_iff key).mp hd
  rw [h e (find_mem he)] at hdirty
  cases hdirty

/-- On a clean table the requests are the plain accesses. -/
theorem Clean.request_eq (h : Clean c) (a : Access Str Str) :
    request c a = (c.serve a).map fun o => (answer a o.1, o.2) := by
  cases a with
  | set key value =>
    have hs : store c key value = c.set key value := by
      rw [store, h.isDirty, Bool.and_false, if_neg Bool.false_ne_true]
    rw [request, hs]
    rfl
  | read key =>
    rw [request, lookup, h.isDirty, Bool.and_false, if_neg Bool.false_ne_true, Cache.serve]
    by_cases hk : c.hasKey key = true
    · rw [if_pos hk, if_pos hk]
      cases c.get key <;> rfl
    · rw [if_neg hk, if_neg hk]
      rfl

theorem Clean.serve (h : Clean c) {a : Access Str Str} {hit : Option Str}
    (ha : c.serve a = some (hit, c')) : Clean c' := by
  cases a with
  | set key value =>
    obtain ⟨-, rfl⟩ := Prod.mk.inj (Option.some.inj ha)
    intro e he
    rcases List.mem_append.mp he with he | he
    · exact h e (c.spec.kept_subset key he)
    · rw [List.mem_singleton.mp he]
  | read key =>
    by_cases hk : key ∈ c.spec.keys
    · obtain ⟨e, c₁, hf, hs, hc₁⟩ := Cache.serve_hit hk
      obtain ⟨-, rfl⟩ := Prod.mk.inj (Option.some.inj (hs.symm.trans ha))
      intro e' he'
      have hmem : e' ∈ without c.entries key ++ (find c.entries key).toList := by
        rw [Cache.entries, hc₁] at he'
        exact he'
      rw [hf, List.mem_append] at hmem
      rcases hmem with hmem | hmem
      · exact h e' (List.mem_of_mem_filter hmem)
      · rw [List.mem_singleton.mp hmem]
        exact h e (find_mem hf)
    · obtain ⟨-, rfl⟩ := Prod.mk.inj (Option.some.inj ((Cache.serve_miss hk).symm.trans ha))
      exact h

/-- What the server with the larger table answers differently it answers to a miss. -/
def AnswersToo (text text' : Str) : Prop := text ≠ Code.dataNotExist → text' = text

theorem answersToo_of_hitsToo {a : Access Str Str} {hit hit' : Option Str}
    (h : Cache.HitsToo hit hit') : AnswersToo (answer a hit) (answer a hit') := by
  intro hne
  cases a with
  | set key value => rfl
  | read key =>
    cases hit with
    | none => exact absurd rfl hne
    | some value => rw [h value rfl]

theorem request_included (h : c.spec.Included c'.spec) (hc : Clean c) (hc' : Clean c')
    (a : Access Str Str) : ∃ text c₁ text' c₁', request c a = some (text, c₁) ∧
      request c' a = some (text', c₁') ∧ (c₁.spec.Included c₁'.spec ∧ Clean c₁ ∧ Clean c₁') ∧
      AnswersToo text text' := by
  obtain ⟨hit, c₁, hit', c₁', hs, hs', hinc, hhit⟩ := Cache.serve_included h a
  refine ⟨answer a hit, c₁, answer a hit', c₁', ?_, ?_, ⟨hinc, hc.serve hs, hc'.serve hs'⟩,
    answersToo_of_hitsToo hhit⟩
  · rw [hc.request_eq, hs]
    rfl
  · rw [hc'.request_eq, hs']
    rfl

/-- Two servers that get the same requests from the start, and of which one has more room. -/
theorem answersToo_of_run {cap cap' : ℕ} (hcap : 1 ≤ cap) (hle : cap ≤ cap')
    (requests : List (Access Str Str)) : ∃ texts small texts' large,
      Lib.run request (.new cap hcap) requests = some (texts, small) ∧
      Lib.run request (.new cap' (hcap.trans hle)) requests = some (texts', large) ∧
      List.Forall₂ AnswersToo texts texts' := by
  have hnew : (Cache.new cap hcap : Cache Str Str).spec.Included
      (Cache.new cap' (hcap.trans hle)).spec := ⟨hle, List.Sublist.refl _, Or.inr rfl⟩
  obtain ⟨texts, small, texts', large, hr, hr', -, hq⟩ :=
    run_related (R := fun (c c' : Cache Str Str) => c.spec.Included c'.spec ∧ Clean c ∧ Clean c')
      (fun _ _ a h _ => request_included h.1 h.2.1 h.2.2 a) ⟨hnew, nofun, nofun⟩
      (allowed_trivial _ requests)
  exact ⟨texts, small, texts', large, hr, hr', hq⟩

end Requests
end DCache.CacheServer
