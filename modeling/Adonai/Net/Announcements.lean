/-
Announcements of one transaction and the rules they keep.

`SettledGroup` are the rules of `SanityCheck` for the announcements of one hash, without the
statistics. Each way in which the tracker changes one or two announcements of a group is a lemma.
-/

import Adonai.Net.TxRequest

namespace Adonai.TxRequest

variable (siphash : SipHash)

structure SettledGroup (group : List Announcement) : Prop where
  single : group.Pairwise fun a b => ¬(a.isSelected = true ∧ b.isSelected = true)
  backed : ∀ a ∈ group, a.m_state = .candidateReady → ∃ b ∈ group, b.isSelected = true
  best : ∀ a ∈ group, ∀ b ∈ group, a.m_state = .candidateReady → b.m_state = .candidateBest →
    priority siphash a ≤ priority siphash b
  live : group = [] ∨ ∃ b ∈ group, b.m_state ≠ .completed

variable {siphash} {a b : Announcement} {rest group others : List Announcement}

section Fields

variable (state : State)

@[simp, grind =] theorem state_setState : (a.setState state).m_state = state := rfl

@[simp, grind =] theorem priority_setState :
    priority siphash (a.setState state) = priority siphash a := rfl

@[simp] theorem txhash_setState : (a.setState state).txhash = a.txhash := rfl

@[simp] theorem peer_setState : (a.setState state).m_peer = a.m_peer := rfl

@[simp] theorem sequence_setState : (a.setState state).m_sequence = a.m_sequence := rfl

@[grind =] theorem isSelected_iff :
    a.isSelected = true ↔ a.m_state = .candidateBest ∨ a.m_state = .requested := by
  simp [Announcement.isSelected]

theorem isSelectable_iff :
    a.isSelectable = true ↔ a.m_state = .candidateReady ∨ a.m_state = .candidateBest := by
  simp [Announcement.isSelectable]

theorem isWaiting_iff :
    a.isWaiting = true ↔ a.m_state = .requested ∨ a.m_state = .candidateDelayed := by
  simp [Announcement.isWaiting]

end Fields

namespace SettledGroup

theorem perm (settled : SettledGroup siphash group) (same : group.Perm others) :
    SettledGroup siphash others where
  single := by
    refine (same.pairwise_iff ?_).mp settled.single
    intro a b apart both
    exact apart ⟨both.2, both.1⟩
  backed := by
    intro a member ready
    obtain ⟨b, selected⟩ := settled.backed a (same.mem_iff.mpr member) ready
    exact ⟨b, same.mem_iff.mp selected.1, selected.2⟩
  best := by
    intro a aMember b bMember
    exact settled.best a (same.mem_iff.mpr aMember) b (same.mem_iff.mpr bMember)
  live := by
    rcases settled.live with empty | ⟨b, member, alive⟩
    · rw [empty] at same
      exact .inl same.nil_eq.symm
    · exact .inr ⟨b, same.mem_iff.mp member, alive⟩

theorem cons_iff : SettledGroup siphash (a :: rest) ↔
      (∀ x ∈ rest, ¬(a.isSelected = true ∧ x.isSelected = true)) ∧
      (rest.Pairwise fun x y => ¬(x.isSelected = true ∧ y.isSelected = true)) ∧
      (a.m_state = .candidateReady → a.isSelected = true ∨ ∃ x ∈ rest, x.isSelected = true) ∧
      (∀ x ∈ rest, x.m_state = .candidateReady →
        a.isSelected = true ∨ ∃ y ∈ rest, y.isSelected = true) ∧
      (∀ x ∈ rest, a.m_state = .candidateReady → x.m_state = .candidateBest →
        priority siphash a ≤ priority siphash x) ∧
      (∀ x ∈ rest, x.m_state = .candidateReady → a.m_state = .candidateBest →
        priority siphash x ≤ priority siphash a) ∧
      (∀ x ∈ rest, ∀ y ∈ rest, x.m_state = .candidateReady → y.m_state = .candidateBest →
        priority siphash x ≤ priority siphash y) ∧
      (a.m_state ≠ .completed ∨ ∃ x ∈ rest, x.m_state ≠ .completed) := by
  constructor
  · intro ⟨single, backed, best, live⟩
    rw [List.pairwise_cons] at single
    simp only [List.mem_cons, exists_eq_or_imp, forall_eq_or_imp] at backed live
    refine ⟨single.1, single.2, backed.1, backed.2, ?_, ?_, ?_, ?_⟩
    · exact fun x member => best a List.mem_cons_self x (List.mem_cons_of_mem a member)
    · exact fun x member => best x (List.mem_cons_of_mem a member) a List.mem_cons_self
    · exact fun x xMember y yMember =>
        best x (List.mem_cons_of_mem a xMember) y (List.mem_cons_of_mem a yMember)
    · exact live.resolve_left (List.cons_ne_nil a rest)
  · intro ⟨headSingle, single, headBacked, backed, below, above, best, live⟩
    constructor
    case single => exact List.pairwise_cons.mpr ⟨headSingle, single⟩
    case backed =>
      simp only [List.mem_cons, exists_eq_or_imp, forall_eq_or_imp]
      exact ⟨headBacked, backed⟩
    case best =>
      intro x xMember y yMember ready isBest
      rcases List.mem_cons.mp xMember with xHead | xRest
      · rcases List.mem_cons.mp yMember with yHead | yRest
        · rw [xHead, yHead]
        · rw [xHead] at ready ⊢
          exact below y yRest ready isBest
      · rcases List.mem_cons.mp yMember with yHead | yRest
        · rw [yHead] at isBest ⊢
          exact above x xRest ready isBest
        · exact best x xRest y yRest ready isBest
    case live =>
      simp only [List.mem_cons, exists_eq_or_imp]
      exact .inr live

theorem nil : SettledGroup siphash [] := by
  constructor <;> simp

theorem promote_best (settled : SettledGroup siphash (a :: rest))
    (delayed : a.m_state = .candidateDelayed) (free : ∀ x ∈ rest, ¬x.isSelected = true) :
    SettledGroup siphash (a.setState .candidateBest :: rest) := by
  rw [cons_iff] at settled ⊢
  grind

theorem wait (settled : SettledGroup siphash (a :: rest)) (taken : ∃ x ∈ rest, x.isSelected = true)
    (lower : ∀ x ∈ rest, x.m_state = .candidateBest → priority siphash a ≤ priority siphash x) :
    SettledGroup siphash (a.setState .candidateReady :: rest) := by
  rw [cons_iff] at settled ⊢
  grind

theorem promote_instead (settled : SettledGroup siphash (a :: b :: rest))
    (isBest : b.m_state = .candidateBest)
    (highest : ∀ x ∈ rest, x.m_state = .candidateReady → priority siphash x ≤ priority siphash a)
    (worse : priority siphash b < priority siphash a) :
    SettledGroup siphash (a.setState .candidateBest :: b.setState .candidateReady :: rest) := by
  rw [cons_iff] at settled ⊢
  simp only [List.pairwise_cons] at settled ⊢
  grind

theorem retire {state : State} (settled : SettledGroup siphash (a :: rest))
    (away : state = .completed ∨ state = .candidateDelayed)
    (unneeded : a.isSelected = true → ∀ x ∈ rest, x.m_state ≠ .candidateReady)
    (alive : state = .completed → ∃ x ∈ rest, x.m_state ≠ .completed) :
    SettledGroup siphash (a.setState state :: rest) := by
  rw [cons_iff] at settled ⊢
  grind

theorem reselect {state : State} (settled : SettledGroup siphash (a :: b :: rest))
    (away : state = .completed ∨ state = .candidateDelayed) (selected : a.isSelected = true)
    (highest : ∀ x ∈ rest, x.m_state = .candidateReady → priority siphash x ≤ priority siphash b) :
    SettledGroup siphash (a.setState state :: b.setState .candidateBest :: rest) := by
  rw [cons_iff] at settled ⊢
  simp only [List.mem_cons, exists_eq_or_imp, List.pairwise_cons] at settled ⊢
  grind

theorem drop (settled : SettledGroup siphash (a :: rest)) (completed : a.m_state = .completed) :
    SettledGroup siphash rest := by
  obtain ⟨_, single, _, backed, _, _, best, live⟩ := settled
  constructor <;> grind

theorem request (settled : SettledGroup siphash (a :: rest)) (requested : b.m_state = .requested)
    (free : ∀ x ∈ rest, ¬x.isSelected = true) : SettledGroup siphash (b :: rest) := by
  rw [cons_iff] at settled ⊢
  grind

/-- Whatever was selected before is ready or completed once `b`, which is `a`, is requested. -/
theorem request_instead {c : Announcement} {state : State}
    (settled : SettledGroup siphash (a :: c :: rest)) (requested : b.m_state = .requested)
    (selected : c.isSelected = true) (away : state = .candidateReady ∨ state = .completed) :
    SettledGroup siphash (b :: c.setState state :: rest) := by
  rw [cons_iff] at settled ⊢
  simp only [List.pairwise_cons] at settled ⊢
  grind

theorem announce (settled : SettledGroup siphash group) (delayed : a.m_state = .candidateDelayed) :
    SettledGroup siphash (a :: group) := by
  obtain ⟨single, backed, best, live⟩ := settled
  rw [cons_iff]
  grind

theorem eq_of_selected (settled : SettledGroup siphash group) (aMember : a ∈ group)
    (bMember : b ∈ group) (aSelected : a.isSelected = true) (bSelected : b.isSelected = true) :
    a = b := by
  by_contra distinct
  have symmetric :
      Std.Symm fun x y : Announcement => ¬(x.isSelected = true ∧ y.isSelected = true) :=
    ⟨fun x y apart both => apart ⟨both.2, both.1⟩⟩
  exact settled.single.forall aMember bMember distinct ⟨aSelected, bSelected⟩

end SettledGroup

def groupOf (txhash : Uint256) (anns : List Announcement) : List Announcement :=
  anns.filter fun ann => ann.txhash == txhash

variable {anns : List Announcement}

theorem mem_groupOf {txhash : Uint256} :
    a ∈ groupOf txhash anns ↔ a ∈ anns ∧ a.txhash = txhash := by
  rw [groupOf, List.mem_filter, beq_iff_eq]

theorem groupOf_append_of_all {txhash : Uint256} (all : ∀ x ∈ anns, x.txhash = txhash)
    (rest : List Announcement) : groupOf txhash (anns ++ rest) = anns ++ groupOf txhash rest := by
  have every : ∀ x ∈ anns, (x.txhash == txhash) = true := by
    intro x member
    rw [beq_iff_eq]
    exact all x member
  rw [groupOf, List.filter_append, List.filter_eq_self.mpr every]
  rfl

private theorem groupOf_append_of_ne {txhash other : Uint256} (all : ∀ x ∈ anns, x.txhash = txhash)
    (different : other ≠ txhash) (rest : List Announcement) :
    groupOf other (anns ++ rest) = groupOf other rest := by
  have none : anns.filter (fun ann => ann.txhash == other) = [] := by
    rw [List.filter_eq_nil_iff]
    intro x member
    rw [beq_iff_eq, all x member]
    exact Ne.symm different
  rw [groupOf, List.filter_append, none]
  rfl

variable (siphash) in
def Settled (anns : List Announcement) : Prop :=
  ∀ txhash, SettledGroup siphash (groupOf txhash anns)

theorem Settled.perm (settled : Settled siphash anns) (same : anns.Perm others) :
    Settled siphash others :=
  fun txhash => (settled txhash).perm (same.filter _)

theorem Settled.replace {olds news : List Announcement} (txhash : Uint256)
    (settled : Settled siphash (olds ++ rest)) (old : ∀ x ∈ olds, x.txhash = txhash)
    (new : ∀ x ∈ news, x.txhash = txhash)
    (here : SettledGroup siphash (olds ++ groupOf txhash rest) →
      SettledGroup siphash (news ++ groupOf txhash rest)) : Settled siphash (news ++ rest) := by
  intro other
  by_cases same : other = txhash
  · rw [same, groupOf_append_of_all new]
    apply here
    rw [← groupOf_append_of_all old]
    exact settled txhash
  · rw [groupOf_append_of_ne new same, ← groupOf_append_of_ne old same]
    exact settled other

end Adonai.TxRequest
