/-
Printed values read back.

A `Datum` is a value as it is printed: numbers, truth values, and arrays that are written out, however many values share
them. Every value that is made of finite numbers, truth values and arrays, none of which contains itself, shows a datum
(`Value.exists_shows_iff`), and its text is the datum's text (`Shows.text?_eq`). That text is cut into the datum's
lexemes (`Datum.scans_text`), and tokens with these lexemes spell an expression (`Datum.exists_spelt`), in which a
negative number has become a number with a minus in front. Wherever that expression is evaluated, it gives a value that
shows the datum again, but for the sign of zero (`Value.text_reads_back`).
-/
import Treewalk.Proofs.Eval.Growth
import Treewalk.Proofs.Eval.Rules
import Treewalk.Proofs.Eval.Texts
import Treewalk.Proofs.Tree.RoundTrip
import Treewalk.Session

namespace Treewalk

/-- a value as it is printed, with its arrays written out -/
inductive Datum where
  | number (negative : Bool) (m : Magnitude)
  | boolean (b : Bool)
  | array (items : List Datum)

namespace Datum

mutual
def text : Datum → Bytes
  | .number s m => (Number.finite s m).text
  | .boolean b => bytes (if b then "true" else "false")
  | .array items => bytes "[" ++ Bytes.joinWith (bytes ", ") (texts items) ++ bytes "]"

def texts : List Datum → List Bytes
  | [] => []
  | d :: ds => d.text :: texts ds
end

mutual
/-- what the datum's text reads back as: zero loses its sign -/
def readBack : Datum → Datum
  | .number s m => .number (s && m.significand != 0) m
  | .boolean b => .boolean b
  | .array items => .array (readBackAll items)

def readBackAll : List Datum → List Datum
  | [] => []
  | d :: ds => d.readBack :: readBackAll ds
end

end Datum

/-! ## The datum that a value shows -/

namespace Value

open Relation

mutual
/-- the value is printed as the datum -/
inductive Shows (h : Heap) : Value → Datum → Prop
  | number {s m} : Shows h (.number (.finite s m)) (.number s m)
  | boolean {b} : Shows h (.boolean b) (.boolean b)
  | array {id ds} (hid : id < h.size) (hitems : ShowsAll h (h.items id) ds) : Shows h (.array id) (.array ds)

inductive ShowsAll (h : Heap) : List Value → List Datum → Prop
  | nil : ShowsAll h [] []
  | cons {v d vs ds} (hv : Shows h v d) (hvs : ShowsAll h vs ds) : ShowsAll h (v :: vs) (d :: ds)
end

mutual
/-- within enough depth, the value's text is that of the datum -/
theorem Shows.exists_textWithin? {h : Heap} {v : Value} {d : Datum} :
    v.Shows h d → ∃ n, ∀ m, n ≤ m → v.textWithin? h m = some d.text
  | .number => ⟨0, fun m _ => by cases m <;> rfl⟩
  | .boolean => ⟨0, fun m _ => by cases m <;> rfl⟩
  | .array _ hitems => by
    obtain ⟨n, hn⟩ := hitems.exists_texts
    refine ⟨n + 1, fun m hm => ?_⟩
    obtain ⟨k, rfl⟩ := Nat.exists_eq_add_of_le' hm
    rw [← Nat.add_assoc, textWithin?, hn (k + n) (Nat.le_add_left n k)]
    rfl

theorem ShowsAll.exists_texts {h : Heap} {vs : List Value} {ds : List Datum} :
    ShowsAll h vs ds → ∃ n, ∀ m, n ≤ m → vs.mapM (textWithin? h m) = some (Datum.texts ds)
  | .nil => ⟨0, fun _ _ => rfl⟩
  | .cons hv hvs => by
    obtain ⟨n, hn⟩ := hv.exists_textWithin?
    obtain ⟨k, hk⟩ := hvs.exists_texts
    refine ⟨max n k, fun m hm => ?_⟩
    rw [List.mapM_cons, hn m (by omega), hk m (by omega)]
    rfl
end

theorem Shows.text?_eq {h : Heap} {v : Value} {d : Datum} (hv : v.Shows h d) : v.text? h = some d.text := by
  obtain ⟨n, hn⟩ := hv.exists_textWithin?
  exact text?_eq_of_textWithin? (hn n (Nat.le_refl n))

mutual
/-- what has been added to a world changes nothing in what a value shows -/
theorem Shows.grows {w w' : World} (hg : w.Grows w') {v : Value} {d : Datum} : v.Shows w.heap d → v.Shows w'.heap d
  | .number => .number
  | .boolean => .boolean
  | .array hid hitems =>
    .array (Nat.lt_of_lt_of_le hid hg.size_le) (by rw [hg.items_eq hid]; exact hitems.grows hg)

theorem ShowsAll.grows {w w' : World} (hg : w.Grows w') {vs : List Value} {ds : List Datum} :
    ShowsAll w.heap vs ds → ShowsAll w'.heap vs ds
  | .nil => .nil
  | .cons hv hvs => .cons (hv.grows hg) (hvs.grows hg)
end

/-- a finite number, a truth value or an array that is there -/
def IsData (h : Heap) : Value → Prop
  | .number (.finite _ _) => True
  | .boolean _ => True
  | .array id => id < h.size
  | _ => False

/-- the value is made of nothing but numbers, truth values and arrays -/
def MadeOfData (h : Heap) (v : Value) : Prop := ∀ u, ReflTransGen (Holds h) v u → u.IsData h

theorem exists_showsAll {h : Heap} {vs : List Value} (hvs : ∀ v ∈ vs, ∃ d, v.Shows h d) : ∃ ds, ShowsAll h vs ds := by
  induction vs with
  | nil => exact ⟨[], .nil⟩
  | cons v vs ih =>
    obtain ⟨d, hd⟩ := hvs v List.mem_cons_self
    obtain ⟨ds, hds⟩ := ih fun u hu => hvs u (List.mem_cons_of_mem v hu)
    exact ⟨d :: ds, .cons hd hds⟩

theorem exists_shows_of_textWithin? {h : Heap} : (n : Nat) → (v : Value) → (v.textWithin? h n).isSome →
    v.MadeOfData h → ∃ d, v.Shows h d
  | _, .number (.finite s m), _, _ => ⟨.number s m, .number⟩
  | _, .boolean b, _, _ => ⟨.boolean b, .boolean⟩
  | n + 1, .array id, htext, hdata => by
    have hitems := isSome_textWithin?_array.1 htext
    obtain ⟨ds, hds⟩ := exists_showsAll fun v hv =>
      exists_shows_of_textWithin? n v (hitems v hv) fun u hu => hdata u (.head (.item hv) hu)
    exact ⟨.array ds, .array (hdata _ .refl) hds⟩
  | 0, .array _, htext, _ => by cases htext
  | _, .number .nan, _, hdata | _, .number (.infinity _), _, hdata => (hdata _ .refl).elim
  | _, .native _, _, hdata | _, .closure _, _, hdata => (hdata _ .refl).elim
  | _, .noArray, _, hdata | _, .noFunction, _, hdata => (hdata _ .refl).elim

theorem ShowsAll.exists_of_mem {h : Heap} {vs : List Value} {ds : List Datum} (hvs : ShowsAll h vs ds) {u : Value}
    (hu : u ∈ vs) : ∃ d, u.Shows h d := by
  induction vs generalizing ds with
  | nil => cases hu
  | cons v vs ih =>
    cases hvs with
    | cons hv hvs =>
      rcases List.mem_cons.1 hu with rfl | hu
      · exact ⟨_, hv⟩
      · exact ih hvs hu

/-- **The values that show a datum** are those that are made of data and have no array in them that contains itself. -/
theorem exists_shows_iff {h : Heap} {v : Value} : (∃ d, v.Shows h d) ↔ ¬ v.Cyclic h ∧ v.MadeOfData h := by
  constructor
  · rintro ⟨d, hd⟩
    refine ⟨fun hcyclic => ?_, fun u hu => ?_⟩
    · rw [← text?_eq_none_iff, hd.text?_eq] at hcyclic
      cases hcyclic
    · obtain ⟨d', hd'⟩ : ∃ d', u.Shows h d' := by
        induction hu with
        | refl => exact ⟨d, hd⟩
        | tail _ hstep ih =>
          obtain ⟨_, hitems⟩ := ih
          cases hstep with
          | item hmem =>
            cases hitems with
            | array _ hitems => exact hitems.exists_of_mem hmem
      cases hd' with
      | number => trivial
      | boolean => trivial
      | array hid _ => exact hid
  · rintro ⟨hcyclic, hdata⟩
    have htext : (v.text? h).isSome := by
      rw [Option.isSome_iff_ne_none]
      exact fun hnone => hcyclic (text?_eq_none_iff.1 hnone)
    exact exists_shows_of_textWithin? _ v htext hdata

end Value

/-! ## What a datum's text is made of -/

namespace Datum

open Token (Scans)
open Bytes (Stops stops_cons)
open Treewalk.Expr (goesOn stops_isWordByte stops_continues scans_mark)

mutual
def lexemes : Datum → List (Kind × Bytes)
  | .number s m =>
    (if s && m.significand != 0 then [(.minus, [45])] else []) ++ [(.number, (Number.finite false m).text)]
  | .boolean b => [(.boolean, bytes (if b then "true" else "false"))]
  | .array items => (.openBracket, [91]) :: (listLexemes items ++ [(.closeBracket, [93])])

/-- the lexemes of data with commas between them -/
def listLexemes : List Datum → List (Kind × Bytes)
  | [] => []
  | [d] => d.lexemes
  | d :: d' :: ds => d.lexemes ++ (.comma, [44]) :: listLexemes (d' :: ds)
end

/-- the texts of data with commas between them -/
def listText (ds : List Datum) : Bytes := Bytes.joinWith (bytes ", ") (texts ds)

theorem text_array (ds : List Datum) : (array ds).text = 91 :: (listText ds ++ [93]) := by
  simp only [text, List.append_assoc]
  rfl

theorem listText_cons (d d' : Datum) (ds : List Datum) :
    listText (d :: d' :: ds) = d.text ++ 44 :: 32 :: listText (d' :: ds) := by
  simp only [listText, texts, Bytes.joinWith, List.append_assoc]
  rfl

mutual
/-- the scanner finds the lexemes of a datum -/
theorem scans_text : (d : Datum) → ∀ {rest ls}, Stops goesOn rest → Scans rest ls →
    Scans (d.text ++ rest) (d.lexemes ++ ls)
  | .number s m, rest, ls, hr, hs => by
    obtain ⟨n, hn, -⟩ := Number.exists_spelling_text m
    rw [text, lexemes, Number.text_finite, hn]
    have hnumber := hs.number n (stops_continues hr)
    cases s && m.significand != 0 with
    | false => exact hnumber
    | true => exact scans_mark rfl (by decide) hnumber
  | .boolean b, rest, ls, hr, hs => by
    rw [text, lexemes]
    cases b with
    | false => exact hs.word (w := bytes "false") (by decide) (stops_isWordByte hr)
    | true => exact hs.word (w := bytes "true") (by decide) (stops_isWordByte hr)
  | .array items, rest, ls, hr, hs => by
    rw [text_array, lexemes]
    simp only [List.cons_append, List.append_assoc, List.nil_append]
    have hclose := scans_mark rfl (by decide) hs (c := 93)
    exact scans_mark rfl (by decide) (scans_listText items (stops_cons rfl) hclose)

theorem scans_listText : (ds : List Datum) → ∀ {rest ls}, Stops goesOn rest → Scans rest ls →
    Scans (listText ds ++ rest) (listLexemes ds ++ ls)
  | [], _, _, _, hs => hs
  | [d], _, _, hr, hs => d.scans_text hr hs
  | d :: d' :: ds, rest, ls, hr, hs => by
    rw [listText_cons, listLexemes]
    simp only [List.cons_append, List.append_assoc]
    have htail := (scans_listText (d' :: ds) hr hs).blank (b := 32) rfl
    exact d.scans_text (stops_cons rfl) (scans_mark rfl (by decide) htail)
end

end Datum

/-! ## What the tokens spell -/

namespace Expr

/-- wherever the expression is evaluated, it gives a value that shows the datum -/
def Gives (e : Expr) (d : Datum) : Prop :=
  ∀ limit depth frame w, ∃ v w', Yields limit depth frame e w (.ok v) w' ∧ v.Shows w'.heap d

def GivesAll (es : List Expr) (ds : List Datum) : Prop :=
  ∀ limit depth frame w, ∃ vs w', YieldsAll limit depth frame es w (.ok vs) w' ∧ Value.ShowsAll w'.heap vs ds

theorem gives_numeral (t : Token) (m : Magnitude) : (numeral t (.finite false m)).Gives (.number false m) :=
  fun _ _ _ w => ⟨_, w, .numeral, .number⟩

theorem Gives.negate {e : Expr} {m : Magnitude} (he : e.Gives (.number false m)) (t : Token) :
    (unary t [45] e).Gives (.number true m) := by
  intro limit depth frame w
  obtain ⟨v, w', hyields, hshows⟩ := he limit depth frame w
  cases hshows
  exact ⟨_, w', .negate rfl hyields, .number⟩

theorem GivesAll.array {es : List Expr} {ds : List Datum} (hes : GivesAll es ds) (t : Token) :
    (array t es).Gives (.array ds) := by
  intro limit depth frame w
  obtain ⟨vs, w', hyields, hshows⟩ := hes limit depth frame w
  refine ⟨_, _, .array hyields, .array (by simp) ?_⟩
  have hitems : Heap.items (w'.heap.push vs) w'.heap.size = vs := by rw [Heap.items_push, if_pos rfl]
  rw [hitems]
  exact hshows.grows (w'.grows_push vs)

theorem givesAll_nil : GivesAll [] [] := fun _ _ _ w => ⟨[], w, .nil, .nil⟩

/-- what the first expression gives is still there after the others have been evaluated -/
theorem Gives.cons {e : Expr} {d : Datum} {es : List Expr} {ds : List Datum} (he : e.Gives d) (hes : GivesAll es ds) :
    GivesAll (e :: es) (d :: ds) := by
  intro limit depth frame w
  obtain ⟨v, w₁, hv, hshows⟩ := he limit depth frame w
  obtain ⟨vs, w₂, hvs, hall⟩ := hes limit depth frame w₁
  have hgrows : w₁.Grows w₂ := hvs.grows
  exact ⟨v :: vs, w₂, .cons hv hvs, .cons (hshows.grows hgrows) hall⟩

end Expr

namespace Datum

open Grammar Grammar.Derivation Token
open Treewalk.Expr (Gives GivesAll gives_numeral givesAll_nil)

mutual
/-- tokens that spell the lexemes of a datum spell an expression that gives it -/
theorem exists_spelt : (d : Datum) → ∀ {ts : List Token}, ts.map lexeme = d.lexemes →
    ∃ e, Spelt .unary e ts ∧ e.Gives d.readBack
  | .number s m, ts, hts => by
    obtain ⟨n, hn, hread⟩ := Number.exists_spelling_text m
    rw [lexemes, hn] at hts
    rw [readBack]
    cases hs : s && m.significand != 0 with
    | false =>
      rw [hs] at hts
      obtain ⟨t, rfl, hk, hw⟩ := exists_of_map_singleton hts
      refine ⟨_, (Spelt.primary ⟨.numeral ⟨t, hk⟩, rfl, rfl⟩).indexed, ?_⟩
      simpa [meaning, hw, hread] using gives_numeral t m
    | true =>
      rw [hs] at hts
      obtain ⟨sign, ts₁, rfl, hsign, hminus, h₁⟩ := exists_of_map_cons hts
      obtain ⟨t, rfl, hk, hw⟩ := exists_of_map_singleton h₁
      refine ⟨_, (Spelt.primary ⟨.numeral ⟨t, hk⟩, rfl, rfl⟩).indexed.signed (.inl hsign), ?_⟩
      simpa [meaning, hw, hread, hminus] using (gives_numeral t m).negate sign
  | .boolean b, ts, hts => by
    obtain ⟨t, rfl, hk, hw⟩ := exists_of_map_singleton hts
    refine ⟨_, (Spelt.primary ⟨.boolean ⟨t, hk⟩, rfl, rfl⟩).indexed, fun _ _ _ w => ⟨_, w, .boolean, ?_⟩⟩
    rw [readBack, hw]
    cases b with
    | false => exact .boolean
    | true => exact .boolean
  | .array items, ts, hts => by
    obtain ⟨opening, ts₁, rfl, ho, -, h₁⟩ := exists_of_map_cons hts
    obtain ⟨us, ts₂, rfl, hus, h₂⟩ := List.map_eq_append_iff.1 h₁
    obtain ⟨closing, rfl, hc, -⟩ := exists_of_map_singleton h₂
    obtain ⟨d, rfl, hd⟩ := exists_items items hus
    exact ⟨_, (Spelt.primary ⟨.array ⟨opening, ho⟩ d ⟨closing, hc⟩, rfl, rfl⟩).indexed, hd.array opening⟩

theorem exists_items : (ds : List Datum) → ∀ {ts : List Token}, ts.map lexeme = listLexemes ds →
    ∃ d : Derivation .items, d.yield = ts ∧ GivesAll d.meaning (readBackAll ds)
  | [], ts, hts => ⟨.noItem, (List.map_eq_nil_iff.1 hts).symm, givesAll_nil⟩
  | [d], ts, hts => by
    obtain ⟨e, he, hgives⟩ := d.exists_spelt hts
    obtain ⟨d₁, rfl, rfl⟩ := (he.level .or).plain
    exact ⟨.someItems d₁ .lastItem, by simp [yield], hgives.cons givesAll_nil⟩
  | d :: d' :: ds, ts, hts => by
    obtain ⟨us, ts₁, rfl, hus, h₁⟩ := List.map_eq_append_iff.1 hts
    obtain ⟨comma, vs, rfl, hk, -, hvs⟩ := exists_of_map_cons h₁
    obtain ⟨e, he, hgives⟩ := d.exists_spelt hus
    obtain ⟨d₁, rfl, rfl⟩ := (he.level .or).plain
    obtain ⟨d₂, rfl, hall⟩ := exists_items (d' :: ds) hvs
    cases d₂ with
    | noItem =>
      obtain ⟨vs, w, hyields, hshows⟩ := hall 0 0 0 World.initial
      cases hshows
      cases hyields
    | someItems first rest =>
      exact ⟨.someItems d₁ (.item ⟨comma, hk⟩ first rest), by simp [yield], hgives.cons hall⟩
end

/-- a print statement with the datum's text is read as one, and what it prints gives the datum -/
theorem block_print (d : Datum) (file : Bytes) (traced : Bool) : ∃ t e,
    Program.block ⟨file, bytes "print " ++ d.text, traced⟩ = .ok [.print t e] ∧ e.Gives d.readBack := by
  have hstops : Bytes.Stops Expr.goesOn [] := by rintro b ⟨⟩
  have hscans := Stmt.scans_keyword (w := bytes "print") (k := .print) (by decide) (by decide)
    (d.scans_text hstops scans_nil)
  have htext : bytes "print" ++ 32 :: d.text = bytes "print " ++ d.text := rfl
  rw [List.append_nil, List.append_nil, htext] at hscans
  obtain ⟨ts, hts, hmap⟩ := hscans (Program.origin ⟨file, bytes "print " ++ d.text, traced⟩) .start
  obtain ⟨us, vs, rfl, hus, hvs⟩ := List.map_eq_append_iff.1 hmap
  obtain ⟨last, rfl, hlast, -⟩ := exists_of_map_singleton hvs
  obtain ⟨keyword, us, rfl, hk, -, hus⟩ := exists_of_map_cons hus
  obtain ⟨e, he, hgives⟩ := d.exists_spelt hus
  obtain ⟨d₁, rfl, rfl⟩ := (he.level .or).plain
  let statement : Derivation .block := .statements (.print ⟨keyword, hk⟩ d₁) .noStatement
  have hyield : statement.yield = keyword :: d₁.yield := by simp [statement, yield]
  have hread : NumeralsRead statement.yield := by
    rw [hyield]
    exact fun t ht => numeralsRead_of_scan hts t (List.mem_append_left _ ht)
  have hend : statement.yield = beforeEnd (keyword :: d₁.yield ++ [last]) := by
    rw [← hyield, beforeEnd_append statement.kind_ne_endOfInput hlast]
  have hparse := statement.parse_eq_meaning hend hread (by simp [statement, parameterLists])
  refine ⟨keyword, d₁.meaning, ?_, hgives⟩
  rw [Program.block, Program.tokens, Token.scan, hts]
  exact hparse

end Datum

/-- **Printed values read back.** A value that is made of finite numbers, truth values and arrays, none of which
contains itself, has a text; the text is read as an expression, and wherever that is evaluated, it gives a value that
shows the same, but for the sign of zero. -/
theorem Value.text_reads_back {h : Heap} {v : Value} (hcyclic : ¬ v.Cyclic h) (hdata : v.MadeOfData h) (file : Bytes)
    (traced : Bool) : ∃ d text t e, v.Shows h d ∧ v.text? h = some text ∧
      Program.block ⟨file, bytes "print " ++ text, traced⟩ = .ok [.print t e] ∧
      Session.expression ⟨file, text, traced⟩ = .ok e ∧
      ∀ limit frame w, ∃ v' w', (e.eval limit frame).runIn w = (.ok v', w') ∧ v'.Shows w'.heap d.readBack := by
  obtain ⟨d, hd⟩ := exists_shows_iff.2 ⟨hcyclic, hdata⟩
  obtain ⟨t, e, hblock, hgives⟩ := d.block_print file traced
  refine ⟨d, d.text, t, e, hd, hd.text?_eq, hblock, ?_, ?_⟩
  · rw [Session.expression, hblock]
  · intro limit frame w
    obtain ⟨v', w', hyields, hshows⟩ := hgives limit 0 frame w
    exact ⟨v', w', hyields.runIn_eval, hshows⟩

theorem Magnitude.canonical_least : Magnitude.Canonical 1 Magnitude.minExponent := by decide

/-- the last array has another one in it twice, with negative zero, the greatest negative number and an empty array -/
def Heap.shared : Heap :=
  #[[], [.number (.finite true .zero), .boolean true, .array 0],
    [.array 1, .number (.finite true ⟨1, _, Magnitude.canonical_least⟩), .array 1]]

theorem Value.text_reads_back_shared : ¬ (Value.array 2).Cyclic .shared ∧ (Value.array 2).MadeOfData .shared ∧
    ∃ d text t e, (Value.array 2).Shows .shared d ∧ (Value.array 2).text? .shared = some text ∧
      Program.block ⟨bytes "shared", bytes "print " ++ text, true⟩ = .ok [.print t e] ∧
      Session.expression ⟨bytes "shared", text, true⟩ = .ok e ∧
      ∀ limit frame w, ∃ v' w', (e.eval limit frame).runIn w = (.ok v', w') ∧ v'.Shows w'.heap d.readBack := by
  have hinner : (Value.array 1).Shows .shared (.array [.number true .zero, .boolean true, .array []]) :=
    .array (by decide) (.cons .number (.cons .boolean (.cons (.array (by decide) .nil) .nil)))
  have houter : (Value.array 2).Shows .shared _ := .array (by decide) (.cons hinner (.cons .number (.cons hinner .nil)))
  obtain ⟨hcyclic, hdata⟩ := exists_shows_iff.1 ⟨_, houter⟩
  exact ⟨hcyclic, hdata, text_reads_back hcyclic hdata (bytes "shared") true⟩

end Treewalk
