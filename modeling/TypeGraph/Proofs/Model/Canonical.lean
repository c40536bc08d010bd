import TypeGraph.Proofs.Compiler.ReadBack
import TypeGraph.Proofs.Model.Reading
import TypeGraph.Proofs.Model.Readable

/-!
# The text of a model as its canonical form

What a model reads back as decides on everything that is said about it: models say the same exactly
if they read back as one model (`Model.same_iff_readBack`), and readable JSON is told apart by its
text at any depth (`Json.Readable.write_injective`). So two models have one text exactly if they say
the same (`Model.text_eq_iff_same`).
-/

namespace TypeGraph

universe u v w

/-! ## Texts of readable JSON -/

namespace Json

/-- Readable values of one text are one value. -/
theorem Readable.write_injective {j k : Json} (hj : j.Readable) (hk : k.Readable)
    (h : j.write = k.write) : j = k := by
  have hs : j.spell [] = k.spell [] := String.ofList_injective h
  exact hj.spells.unique (hs ▸ hk.spells)

end Json

/-! ## Models that say the same -/

/-- A finite number is the same as another exactly if they agree but for the sign of a zero. -/
theorem Double.same_iff_unsignedZero {d e : Double} (hd : d.isFinite = true) :
    d.same e = true ↔ d.unsignedZero = e.unsignedZero := by
  have hn : d.isNaN = false := by
    rw [isFinite_iff] at hd
    exact decide_eq_false (by omega)
  constructor
  · intro h
    simp only [same, Bool.and_eq_true, Bool.or_eq_true, decide_eq_true_eq] at h
    obtain ⟨-, hb | ⟨hdz, hez⟩⟩ := h
    · rw [show d = e from congrArg Double.mk hb]
    · rw [unsignedZero, unsignedZero, if_pos hdz, if_pos hez]
  · intro h
    have hz : d.isZero = e.isZero := by
      rw [← isZero_unsignedZero d, h, isZero_unsignedZero]
    cases hdz : d.isZero with
    | false =>
      rw [unsignedZero_of_ne hdz, unsignedZero_of_ne (hz ▸ hdz)] at h
      simp [same, ← h, hn]
    | true =>
      have hen : e.isNaN = false := by
        have he := (isFinite_iff e).mp (isFinite_of_isZero (hz ▸ hdz))
        exact decide_eq_false (by omega)
      simp [same, hn, hen, ← hz, hdz]

theorem Literal.same_iff_unsigned {l k : Literal} (hl : l.isFinite = true) :
    l.same k = true ↔ l.unsigned = k.unsigned := by
  cases l with
  | number d =>
    cases k with
    | number e =>
      rw [same, Double.same_iff_unsignedZero hl, unsigned, unsigned, Literal.number.injEq]
    | _ => simp [same, unsigned]
  | _ => cases k <;> simp [same, unsigned]

section

variable {α : Type u} {β : Type v} {γ : Type w} {r : α → β → Bool} {f : α → γ} {g : β → γ}

theorem listAgrees_iff {as : List α} {bs : List β}
    (h : ∀ a ∈ as, ∀ b ∈ bs, (r a b = true ↔ f a = g b)) :
    listAgrees r as bs = true ↔ as.map f = bs.map g := by
  induction as generalizing bs with
  | nil => cases bs <;> simp [listAgrees]
  | cons a as ih =>
    cases bs with
    | nil => simp [listAgrees]
    | cons b bs =>
      have hab := h a List.mem_cons_self b List.mem_cons_self
      have hrest := ih fun c hc d hd =>
        h c (List.mem_cons_of_mem _ hc) d (List.mem_cons_of_mem _ hd)
      rw [listAgrees, Bool.and_eq_true, hab, hrest, List.map_cons, List.map_cons, List.cons.injEq]

theorem Property.agrees_iff {p : Property α} {q : Property β}
    (h : r p.value q.value = true ↔ f p.value = g q.value) :
    p.agrees r q = true ↔ p.map f = q.map g := by
  simp [agrees, map, h, and_assoc]

theorem Signature.agrees_iff {s : Signature α} {t : Signature β}
    (h : r s.value t.value = true ↔ f s.value = g t.value) :
    s.agrees r t = true ↔ s.map f = t.map g := by
  simp [agrees, map, h]

/-- A layer of a finite literal agrees with another exactly if the layers are one but for the sign
of a zero, with what is nested in them told by `f` and `g`. -/
theorem Shape.agrees_iff {s : Shape α} {t : Shape β} (hs : s.isFinite = true)
    (h : ∀ a ∈ s.children, ∀ b ∈ t.children, (r a b = true ↔ f a = g b)) :
    s.agrees r t = true ↔ (s.map f).unsigned = (t.map g).unsigned := by
  have hprops {ps : List (Property α)} {qs : List (Property β)}
      (hp : ∀ a ∈ ps.map (·.value), ∀ b ∈ qs.map (·.value), (r a b = true ↔ f a = g b)) :
      listAgrees (Property.agrees r) ps qs = true ↔
        ps.map (·.map f) = qs.map (·.map g) :=
    listAgrees_iff fun p hps q hqs =>
      Property.agrees_iff (hp _ (List.mem_map_of_mem hps) _ (List.mem_map_of_mem hqs))
  cases s <;> cases t <;> try simp [agrees, map, unsigned]
  case literal.literal l k => exact Literal.same_iff_unsigned hs
  case group.group k as l bs => exact fun _ => listAgrees_iff h
  case array.array a b => simpa [children] using h
  case index.index s t => exact Signature.agrees_iff (by simpa [children] using h)
  case object.object ps qs => exact hprops h
  case objectWithIndex.objectWithIndex ps s qs t =>
    simp only [children, List.mem_append, List.mem_singleton] at h
    rw [hprops fun a ha b hb => h a (.inl ha) b (.inl hb),
      Signature.agrees_iff (h _ (.inr rfl) _ (.inr rfl))]

end

namespace Model

variable {H : Type u} {G : Type v} {F : Type w}

/-- A model of finite number literals says the same as another exactly if they read back as one
model. -/
theorem same_iff_readBack {m : Model H} {n : Model G} (hm : m.isFinite = true) :
    m.same n = true ↔ (m.readBack : Model F) = n.readBack := by
  induction m using induction generalizing n with
  | mk s o ih =>
    rw [isFinite_eq, Bool.and_eq_true, List.all_eq_true] at hm
    rw [same_eq, readBack_eq, readBack_eq, Model.mk.injEq, and_iff_left rfl]
    exact Shape.agrees_iff hm.1 fun a ha b _ => ih a ha (hm.2 a ha)

/-- What is written for two models is the same exactly if they read back as one model, where one of
them has finite number literals. -/
theorem members_eq_iff_readBack {F : Type} {m : Model H} {n : Model G} (hm : m.isFinite = true) :
    m.members = n.members ↔ (m.readBack : Model F) = n.readBack := by
  constructor
  · intro h
    -- both are read from the same members, however deep these nest
    have hread := ofMembers_members (G := F) (le_refl m.toJson.depth)
    have hread' := ofMembers_members (G := F) (le_refl n.toJson.depth)
    rw [toJson, h, hm, okIf_true, ← toJson, hread'] at hread
    cases hn : n.isFinite with
    | false =>
      rw [hn] at hread
      cases hread
    | true =>
      rw [hn] at hread
      exact (Except.ok.inj hread).symm
  · intro h
    rw [← m.members_readBack (G := F), h, members_readBack]

/-- Two models of which one has finite number literals have one text exactly if they say the same.
Whatever their origins are, models of the same data have one text. -/
theorem text_eq_iff_same {m : Model H} {n : Model G} :
    (m.FiniteNumbers → (m.text = n.text ↔ m.same n = true)) ∧
      ((m.detach : Model Unit) = n.detach → m.text = n.text) := by
  constructor
  · intro hm
    have hfinite := m.isFinite_iff.mpr hm
    rw [same_iff_readBack (F := Unit) hfinite, ← members_eq_iff_readBack hfinite]
    refine ⟨fun h => ?_, fun h => by rw [text, toJson, h]; rfl⟩
    exact Json.object.inj (m.readable_toJson.write_injective n.readable_toJson h)
  · intro h
    rw [text, text, toJson, toJson, ← m.members_readBack (G := Unit),
      ← m.readBack_detach (F := Unit), h, n.readBack_detach, n.members_readBack]

/-- A union of a zero of either sign and a text that holds punctuation of documents. -/
def zeroOrText (zero : Double) (origin : Option H) : Model H :=
  ⟨.group .union [⟨.literal (.number zero), origin⟩, .ofLiteral (.string "\",\"kind\":\"any")],
    origin⟩

theorem text_eq_iff_same_zeros :
    let m : Model Nat := zeroOrText ⟨0x8000000000000000⟩ (some 7)
    let n : Model Unit := zeroOrText ⟨0⟩ none
    m.FiniteNumbers ∧ m.text = n.text := by
  intro m n
  have hm : m.FiniteNumbers := m.isFinite_iff.mp (by decide +kernel)
  exact ⟨hm, (text_eq_iff_same.1 hm).mpr (by decide +kernel)⟩

end Model

end TypeGraph
