/-
Lexemes written out with gaps between them.

`Spaced t ls` says that `t` is the lexemes `ls` in order, kept apart by gaps that start with a blank; such a gap goes on
with blanks and with comments that end with their lines. The last comment of a text may lack its line feed. A blank goes
on with no lexeme and makes no comment of a slash, so the scanner finds just these lexemes (`Token.scan_spaced`).
-/
import Treewalk.Proofs.Token.Cut
import Treewalk.Proofs.Token.Scanning

namespace Treewalk

namespace Lexeme

/-- blanks and comments, each comment with the line feed that ends it -/
inductive Filler : Bytes → Prop where
  | nil : Filler []
  | blank {b : UInt8} {g : Bytes} (hb : isBlank b = true) (h : Filler g) : Filler (b :: g)
  | comment {c g : Bytes} (hc : Bytes.lf ∉ c) (h : Filler g) : Filler (47 :: 47 :: (c ++ Bytes.lf :: g))

/-- filler, and perhaps a comment that goes on to the end of the text -/
inductive Trailer : Bytes → Prop where
  | filler {g : Bytes} (h : Filler g) : Trailer g
  | comment {g c : Bytes} (h : Filler g) (hc : Bytes.lf ∉ c) : Trailer (g ++ 47 :: 47 :: c)

/-- the rest of a text behind the lexeme `w`: gaps that start with a blank, each with a lexeme behind it, and in the end
a trailer, which must not make a comment of a slash -/
inductive SpacedBehind : Bytes → Bytes → List (Kind × Bytes) → Prop where
  | last {w t : Bytes} (ht : Trailer t) (hslash : w = bytes "/" → ∀ b ∈ t.head?, isBlank b = true) :
      SpacedBehind w t []
  | next {w g v t : Bytes} {b : UInt8} {k : Kind} {ls : List (Kind × Bytes)} (hb : isBlank b = true) (hg : Filler g)
      (hv : IsLexeme k v) (h : SpacedBehind v t ls) : SpacedBehind w (b :: g ++ (v ++ t)) ((k, v) :: ls)

/-- the text is the lexemes in order, with gaps between them -/
inductive Spaced : Bytes → List (Kind × Bytes) → Prop where
  | none {t : Bytes} (ht : Trailer t) : Spaced t []
  | some {g w t : Bytes} {k : Kind} {ls : List (Kind × Bytes)} (hg : Filler g) (hw : IsLexeme k w)
      (h : SpacedBehind w t ls) : Spaced (g ++ (w ++ t)) ((k, w) :: ls)

/-- a trailer starts with a blank or with a comment -/
theorem Trailer.head {t : Bytes} (h : Trailer t) : ∀ b ∈ t.head?, isBlank b = true ∨ b = 47 := by
  have hfiller : ∀ {g : Bytes}, Filler g → ∀ b ∈ g.head?, isBlank b = true ∨ b = 47 := by
    intro g hg b hb
    cases hg with
    | nil => cases hb
    | blank hblank =>
      obtain rfl := Option.some.inj hb
      exact .inl hblank
    | comment =>
      obtain rfl := Option.some.inj hb
      exact .inr rfl
  cases h with
  | filler hg => exact hfiller hg
  | @comment g c hg =>
    intro b hb
    cases g with
    | nil =>
      obtain rfl := Option.some.inj hb
      exact .inr rfl
    | cons => exact hfiller hg b hb

/-- what follows a lexeme starts with a blank or with a comment, and behind a slash only with a blank -/
theorem SpacedBehind.head {w t : Bytes} {ls : List (Kind × Bytes)} (h : SpacedBehind w t ls) :
    (∀ b ∈ t.head?, isBlank b = true ∨ b = 47) ∧ (w = bytes "/" → ∀ b ∈ t.head?, isBlank b = true) := by
  cases h with
  | last ht hslash => exact ⟨ht.head, hslash⟩
  | next hb =>
    have hhead : ∀ c ∈ some _, isBlank c = true := fun c hc => Option.some.inj hc ▸ hb
    exact ⟨fun c hc => .inl (hhead c hc), fun _ => hhead⟩

end Lexeme

namespace Token

open Lexeme

variable {t : Bytes} {ls : List (Kind × Bytes)}

theorem Scans.comment {c : Bytes} (hc : Bytes.lf ∉ c) (ht : ∀ b ∈ t.head?, b = Bytes.lf) (h : Scans t ls) :
    Scans (47 :: 47 :: (c ++ t)) ls := by
  intro o p
  have hwhole : Lexeme.comment (47 :: 47 :: (c ++ t)) = 47 :: 47 :: c := by
    have htake : (c ++ t).takeWhile (· != Bytes.lf) = c :=
      Bytes.takeWhile_append (Bytes.bne_of_notMem hc) fun b hb => by simp [ht b hb]
    exact congrArg (fun c => 47 :: 47 :: c) htake
  obtain ⟨ts, hts, hls⟩ := h o (p.afterAll (47 :: 47 :: c))
  refine ⟨ts, ?_, hls⟩
  have hdrop : (47 :: (c ++ t)).drop ((47 :: 47 :: c).length - 1) = t :=
    drop_of_cons_eq_append (b := 47) rfl (List.cons_ne_nil _ _)
  rw [scanFrom, if_neg (by decide)]
  simp only [hwhole, hdrop, hts]
  rfl

theorem Scans.filler {g : Bytes} (hg : Filler g) (h : Scans t ls) : Scans (g ++ t) ls := by
  induction hg with
  | nil => exact h
  | blank hb _ ih => exact ih.blank hb
  | comment hc _ ih =>
    rw [List.cons_append, List.cons_append, List.append_assoc]
    exact .comment hc (by simp) (ih.blank rfl)

theorem Scans.trailer (h : Trailer t) : Scans t [] := by
  cases h with
  | filler hg => simpa using Scans.filler hg scans_nil
  | comment hg hc =>
    have hcomment := Scans.comment hc (by simp) scans_nil
    rw [List.append_nil] at hcomment
    exact .filler hg hcomment

/-- the bytes that a gap starts with go on with no number and no word, and make no longer operator -/
theorem gap_byte {b : UInt8} (hb : isBlank b = true ∨ b = 47) : Numeral.continues b = false ∧ isWordByte b = false ∧
    ∀ p ∈ singles, pairs.lookup (p.1 ++ [b]) = none := by
  have hall : ∀ c ∈ [32, 9, 13, 10, 47], Numeral.continues c = false ∧ isWordByte c = false ∧
      ∀ p ∈ singles, pairs.lookup (p.1 ++ [c]) = none := by decide +kernel
  apply hall
  simpa [isBlank, or_assoc] using hb

/-- a lexeme before a gap is scanned whole; only a slash must not stand before a comment -/
theorem Scans.before_gap {k : Kind} {w : Bytes} (hw : IsLexeme k w)
    (hgap : ∀ b ∈ t.head?, isBlank b = true ∨ b = 47) (hslash : w = bytes "/" → ∀ b ∈ t.head?, isBlank b = true)
    (h : Scans t ls) : Scans (w ++ t) ((k, w) :: ls) := by
  cases hw with
  | number n => exact .number n (fun b hb => (gap_byte (hgap b hb)).1) h
  | word hword => exact .word hword (fun b hb => (gap_byte (hgap b hb)).2.1) h
  | operator hop =>
    have hpairs : ∀ p ∈ pairs, pairs.lookup p.1 = some p.2 := by decide +kernel
    have hsingles : ∀ p ∈ singles, singles.lookup p.1 = some p.2 := by decide +kernel
    rcases List.mem_append.1 hop with hmem | hmem
    · exact .pair (hpairs _ hmem) h
    · obtain ⟨c, rfl⟩ := List.length_eq_one_iff.1 (length_of_mem_singles _ hmem)
      refine .single (hsingles _ hmem) (fun b hb => ⟨(gap_byte (hgap b hb)).2.2 _ hmem, ?_⟩) h
      rintro ⟨rfl, rfl⟩
      exact absurd (hslash rfl 47 hb) (by decide)

theorem Scans.spacedBehind {w : Bytes} (h : SpacedBehind w t ls) : Scans t ls := by
  induction h with
  | last ht _ => exact .trailer ht
  | next hb hg hv hrest ih =>
    have hafter := hrest.head
    exact .blank hb (.filler hg (.before_gap hv hafter.1 hafter.2 ih))

/-- **Scanning undoes writing out.** Lexemes that are written out with gaps between them are scanned as these lexemes,
each with its kind, and then the end of input. -/
theorem scan_spaced (o : Origin) (h : Spaced t ls) :
    ∃ ts, scan o t = .ok ts ∧ ts.map lexeme = ls ++ [(.endOfInput, [])] := by
  have hscans : Scans t ls := by
    cases h with
    | none ht => exact .trailer ht
    | some hg hw hrest =>
      have hafter := hrest.head
      exact .filler hg (.before_gap hw hafter.1 hafter.2 (.spacedBehind hrest))
  exact hscans o .start

/-- a number, a word that looks like its exponent, a slash before a comment, and a power with a comment right behind it -/
def slashes : Bytes := bytes "1 e5\t/ // :=\n**// end"

theorem spaced_slashes : Spaced slashes
    [(.number, bytes "1"), (.identifier, bytes "e5"), (.slash, bytes "/"), (.power, bytes "**")] := by
  obtain ⟨n, hn⟩ := exists_spelling_of_next? (t := bytes "1") (w := bytes "1") (by decide)
  have hnumber : IsLexeme .number (bytes "1") := hn ▸ .number n
  have hkind : wordKind (bytes "e5") = .identifier := by decide
  have hword : IsLexeme .identifier (bytes "e5") := hkind ▸ .word (by decide)
  have hslash : IsLexeme .slash (bytes "/") := .operator (by decide +kernel)
  have hpower : IsLexeme .power (bytes "**") := .operator (by decide +kernel)
  have hcomment : Filler (bytes "// :=\n") := .comment (c := bytes " :=") (by decide) .nil
  have hend : Trailer (bytes "// end") := .comment (c := bytes " end") .nil (by decide)
  have htext : slashes = [] ++ (bytes "1" ++ ([32] ++ (bytes "e5" ++ ([9] ++ (bytes "/" ++
      (32 :: bytes "// :=\n" ++ (bytes "**" ++ bytes "// end"))))))) := by decide +kernel
  rw [htext]
  exact .some .nil hnumber (.next rfl .nil hword (.next rfl .nil hslash (.next rfl hcomment hpower
    (.last hend (fun h => absurd h (by decide))))))

theorem scan_spaced_slashes : Spaced slashes
      [(.number, bytes "1"), (.identifier, bytes "e5"), (.slash, bytes "/"), (.power, bytes "**")] ∧
    ∃ ts, scan ⟨bytes "slashes", none⟩ slashes = .ok ts ∧ ts.map lexeme = [(.number, bytes "1"),
      (.identifier, bytes "e5"), (.slash, bytes "/"), (.power, bytes "**"), (.endOfInput, [])] :=
  ⟨spaced_slashes, scan_spaced _ spaced_slashes⟩

end Token

end Treewalk
