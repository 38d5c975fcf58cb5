/-
Expressions and the tokens that spell them.

`Spelt c e ts` says that some derivation of the category `c` has the tokens `ts` and denotes `e`. The lemmas put such
derivations together as the grammar does, and grow them at their end, where the left-recursive chains of operators and
subscripts grow. An expression of a tighter category is one of every looser category (`Spelt.loosen`).
-/
import Mathlib.Tactic
import Treewalk.Proofs.Grammar.Unambiguous

namespace Treewalk

namespace Grammar

open Grammar.Derivation

/-- the tokens spell the expression, as one of the category -/
def Spelt (c : Category) (e : Expr) (ts : List Token) : Prop :=
  ∃ d : Derivation (.expression c), d.meaning = e ∧ d.yield = ts

/-! ## Derivations that grow at their end -/

theorem exists_operands {l : Level} (op : { t : Token // t.kind ∈ l.operators })
    (right : Derivation (.expression l.operand)) : (rest : Derivation (.operands l)) →
    ∃ rest' : Derivation (.operands l), (∀ e, rest'.meaning e = .binary op.1 op.1.text (rest.meaning e) right.meaning) ∧
      rest'.yield = rest.yield ++ op.1 :: right.yield
  | noOperand _ => ⟨operand l op right (noOperand l), fun _ => rfl, by simp [yield]⟩
  | operand _ op' right' rest => by
    obtain ⟨rest', hm, hy⟩ := exists_operands op right rest
    exact ⟨operand l op' right' rest', fun e => hm _, by simp [yield, hy]⟩

theorem exists_subscripts (opening : Terminal .openBracket) (index : Derivation (.expression .conditional))
    (closing : Terminal .closeBracket) : (rest : Derivation .subscripts) →
    ∃ rest' : Derivation .subscripts, (∀ e, rest'.meaning e = .subscript opening.1 (rest.meaning e) index.meaning) ∧
      rest'.yield = rest.yield ++ opening.1 :: index.yield ++ [closing.1]
  | noSubscript => ⟨subscript opening index closing noSubscript, fun _ => rfl, by simp [yield]⟩
  | subscript opening' index' closing' rest => by
    obtain ⟨rest', hm, hy⟩ := exists_subscripts opening index closing rest
    exact ⟨subscript opening' index' closing' rest', fun e => hm _, by simp [yield, hy]⟩

theorem exists_statements (last : Derivation .statement) : (b : Derivation .block) →
    ∃ b' : Derivation .block, b'.meaning = b.meaning ++ last.meaning ∧ b'.yield = b.yield ++ last.yield ∧
      b'.parameterLists = b.parameterLists ++ last.parameterLists
  | noStatement => ⟨statements last noStatement, by simp [meaning], by simp [yield], by simp [parameterLists]⟩
  | statements first rest => by
    obtain ⟨b', hm, hy, hp⟩ := exists_statements last rest
    exact ⟨statements first b', by simp [meaning, hm], by simp [yield, hy], by simp [parameterLists, hp]⟩

variable {e e' l : Expr} {ts us vs : List Token} {t : Token}

theorem Spelt.binary {k : Level} (hl : Spelt (.level k) l ts) (hop : t.kind ∈ k.operators) (he : Spelt k.operand e us) :
    Spelt (.level k) (.binary t t.text l e) (ts ++ t :: us) := by
  obtain ⟨d, rfl, rfl⟩ := hl
  obtain ⟨d', rfl, rfl⟩ := he
  cases d with
  | chain _ first rest =>
    obtain ⟨rest', hm, hy⟩ := exists_operands ⟨t, hop⟩ d' rest
    exact ⟨chain k first rest', hm _, by simp [yield, hy]⟩

theorem Spelt.subscript {opening closing : Token} (he : Spelt .indexed e ts) (ho : opening.kind = .openBracket)
    (hi : Spelt .conditional e' us) (hc : closing.kind = .closeBracket) :
    Spelt .indexed (.subscript opening e e') (ts ++ opening :: us ++ [closing]) := by
  obtain ⟨d, rfl, rfl⟩ := he
  obtain ⟨d', rfl, rfl⟩ := hi
  cases d with
  | indexed first rest =>
    obtain ⟨rest', hm, hy⟩ := exists_subscripts ⟨opening, ho⟩ d' ⟨closing, hc⟩ rest
    exact ⟨indexed first rest', hm _, by simp [yield, hy]⟩

theorem Spelt.primary (h : Spelt .primary e ts) : Spelt .indexed e ts := by
  obtain ⟨d, rfl, rfl⟩ := h
  exact ⟨indexed d noSubscript, rfl, by simp [yield]⟩

theorem Spelt.indexed (h : Spelt .indexed e ts) : Spelt .unary e ts := by
  obtain ⟨d, rfl, rfl⟩ := h
  exact ⟨unsigned (base d), rfl, rfl⟩

theorem Spelt.signed (hop : t.kind = .minus ∨ t.kind = .not) (h : Spelt .unary e ts) :
    Spelt .unary (.unary t t.text e) (t :: ts) := by
  obtain ⟨d, rfl, rfl⟩ := h
  exact ⟨.signed ⟨t, hop⟩ d, rfl, rfl⟩

theorem Spelt.raise (he : Spelt .indexed e ts) (hop : t.kind = .power) (he' : Spelt .unary e' us) :
    Spelt .unary (.binary t t.text e e') (ts ++ t :: us) := by
  obtain ⟨d, rfl, rfl⟩ := he
  obtain ⟨d', rfl, rfl⟩ := he'
  exact ⟨unsigned (.raise d ⟨t, hop⟩ d'), rfl, rfl⟩

theorem Spelt.choice {test yes no : Expr} {mark colon : Token} (ht : Spelt (.level .or) test ts)
    (hm : mark.kind = .question) (hy : Spelt .conditional yes us) (hc : colon.kind = .colon)
    (hn : Spelt .conditional no vs) :
    Spelt .conditional (.conditional mark test yes no) (ts ++ mark :: us ++ colon :: vs) := by
  obtain ⟨d, rfl, rfl⟩ := ht
  obtain ⟨d₁, rfl, rfl⟩ := hy
  obtain ⟨d₂, rfl, rfl⟩ := hn
  exact ⟨.choice d ⟨mark, hm⟩ d₁ ⟨colon, hc⟩ d₂, rfl, rfl⟩

/-! ## Tighter expressions are looser ones -/

/-- categories of operands by number, from 1 for the loosest level to 7 for operands of a product -/
def Category.tight : Nat → Category
  | 0 | 1 => .level .or
  | 2 => .level .and
  | 3 => .level .equality
  | 4 => .level .comparison
  | 5 => .level .sum
  | 6 => .level .product
  | _ => .unary

theorem Category.tight_number (k : Level) : Category.tight k.number = .level k := by
  cases k <;> rfl

theorem Category.tight_operand (k : Level) : Category.tight (k.number + 1) = k.operand := by
  cases k <;> rfl

theorem Category.tight_of_le {n : Nat} (h : 7 ≤ n) : Category.tight n = .unary := by
  obtain ⟨m, rfl⟩ := Nat.exists_eq_add_of_le' h
  rfl

theorem Spelt.chain {k : Level} (h : Spelt k.operand e ts) : Spelt (.level k) e ts := by
  obtain ⟨d, rfl, rfl⟩ := h
  exact ⟨.chain k d (noOperand k), rfl, by simp [yield]⟩

theorem Spelt.tight_of_succ {n : Nat} (h : Spelt (.tight (n + 1)) e ts) : Spelt (.tight n) e ts := by
  match n with
  | 0 => exact h
  | 1 => exact chain h
  | 2 => exact chain h
  | 3 => exact chain h
  | 4 => exact chain h
  | 5 => exact chain h
  | 6 => exact chain h
  | n + 7 => exact h

theorem Spelt.loosen {m n : Nat} (h : Spelt (.tight n) e ts) (hmn : m ≤ n) : Spelt (.tight m) e ts := by
  induction hmn with
  | refl => exact h
  | step _ ih => exact ih h.tight_of_succ

theorem Spelt.level (k : Level) (h : Spelt .unary e ts) : Spelt (.level k) e ts := by
  rw [← Category.tight_number]
  exact loosen (n := 7) h (by have := k.number_le; omega)

theorem Spelt.operand (k : Level) (h : Spelt .unary e ts) : Spelt k.operand e ts := by
  rw [← Category.tight_operand]
  exact loosen (n := 7) h (by have := k.number_le; omega)

theorem Spelt.plain {k : Level} (h : Spelt (.level k) e ts) : Spelt .conditional e ts := by
  rw [← Category.tight_number] at h
  obtain ⟨d, rfl, rfl⟩ := h.loosen (Nat.zero_le _)
  exact ⟨Derivation.plain d, rfl, rfl⟩

theorem Spelt.group {opening closing : Token} (ho : opening.kind = .openParen) (h : Spelt .conditional e ts)
    (hc : closing.kind = .closeParen) : Spelt .indexed e (opening :: (ts ++ [closing])) := by
  obtain ⟨d, rfl, rfl⟩ := h
  exact primary ⟨Derivation.group ⟨opening, ho⟩ d ⟨closing, hc⟩, rfl, rfl⟩

/-- an infix operator between operands that bind tighter than all operators -/
theorem Spelt.operation (hl : Spelt .indexed l ts) (hop : t.kind = .power ∨ ∃ k : Level, t.kind ∈ k.operators)
    (hr : Spelt .indexed e us) : Spelt .conditional (.binary t t.text l e) (ts ++ t :: us) := by
  rcases hop with hop | ⟨k, hop⟩
  · exact ((hl.raise hop hr.indexed).level .or).plain
  · exact ((hl.indexed.level k).binary hop (hr.indexed.operand k)).plain

end Grammar

end Treewalk
