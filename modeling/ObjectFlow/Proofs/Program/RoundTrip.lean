/-
  File:      ObjectFlow/Proofs/Program/RoundTrip.lean
  Subject:   A PRINTED BODY, WRITTEN IN PLACE OF THE BODY, IS READ BACK AS THE BODY.

  * `BodyText`: where the body of a method stands in a source text;
  * `exists_bodyText`: the body of every method with statements stands somewhere;
  * `printed_statements_read_back`: the text with the printed body gives a program with the same
    statements, if every statement is unambiguous;
  * `hidden_class_is_not_read_back`: a static field that is printed through a class whose name a
    variable has.
-/
import ObjectFlow.Proofs.Program.ReadBack

namespace ObjectFlow

open Program

/-! ## 1. Whole texts -/

theorem Program.ofSource_eq_ok {source : String} {p : Program} :
    ofSource source = .ok p ↔ ∃ tokens, lex source = .ok tokens ∧ ofTokens tokens = .ok p := by
  unfold ofSource
  constructor
  · intro h
    split at h
    · cases h
    · rename_i tokens htokens
      split at h
      · cases h
      · rename_i hp
        cases h
        exact ⟨tokens, htokens, hp⟩
  · intro ⟨tokens, htokens, hp⟩
    rw [htokens]
    dsimp only
    rw [hp]

theorem ended_of_scan {line skip : Nat} {cs : List Char} {tokens : List LineToken}
    (h : scan line skip cs = .ok tokens) : Reader.Ended tokens := by
  induction cs generalizing line skip tokens with
  | nil =>
    cases h
    exact ⟨[], _, rfl, rfl⟩
  | cons c rest ih =>
    cases skip with
    | succ skip => exact ih h
    | zero =>
      rw [scan] at h
      split at h
      · obtain ⟨later, hlater, rfl⟩ := map_eq_ok h
        obtain ⟨front, last, rfl, hlast⟩ := ih hlater
        exact ⟨_ :: front, last, rfl, hlast⟩
      · exact ih h
      · cases h

/-- A block ends with a closing brace. -/
theorem exists_close {depth : Nat} {c : List LineToken}
    (h : Reader.skipBlock? (depth + 1) c = some []) :
    ∃ inner closing, c = inner ++ [closing] ∧ closing.token = .mark .rightBrace := by
  suffices hall : ∀ {depth : Nat} {c : List LineToken}, Reader.skipBlock? depth c = some [] →
      depth = 0 ∧ c = [] ∨
        ∃ inner closing, c = inner ++ [closing] ∧ closing.token = .mark .rightBrace by
    rcases hall h with ⟨hzero, -⟩ | hclose
    · cases hzero
    · exact hclose
  intro depth c h
  fun_induction Reader.skipBlock? depth c with
  | case1 ts =>
    cases h
    exact .inl ⟨rfl, rfl⟩
  | case2 => cases h
  | case3 => cases h
  | case4 depth t later ht ih =>
    rcases ih h with ⟨hzero, -⟩ | ⟨inner, closing, rfl, hclose⟩
    · cases hzero
    · exact .inr ⟨t :: inner, closing, rfl, hclose⟩
  | case5 depth t later ht ih =>
    rcases ih h with ⟨-, rfl⟩ | ⟨inner, closing, rfl, hclose⟩
    · exact .inr ⟨[], t, rfl, ht⟩
    · exact .inr ⟨t :: inner, closing, rfl, hclose⟩
  | case6 depth t later _ _ _ ih =>
    rcases ih h with ⟨hzero, -⟩ | ⟨inner, closing, rfl, hclose⟩
    · cases hzero
    · exact .inr ⟨t :: inner, closing, rfl, hclose⟩

theorem forall₂_sameToken {ts ts' : List LineToken} (h : ts'.map (·.token) = ts.map (·.token)) :
    List.Forall₂ Reader.SameToken ts ts' := by
  have hmapped : List.Forall₂ Eq (ts'.map (·.token)) (ts.map (·.token)) := by
    rw [List.forall₂_eq_eq_eq]
    exact h
  exact (List.forall₂_map_right_iff.mp (List.forall₂_map_left_iff.mp hmapped)).flip

/-- A brace stands where the text is cut. -/
theorem getElem?_places {skip n : Nat} {cs v : List Char} {t : Token} {b : Char}
    (hb : brace? t = some b) (h : (places skip cs).drop n = places 0 (b :: v)) :
    (places skip cs)[n]? = some (b :: v) := by
  have hhead := congrArg (·[0]?) h
  rw [places_brace hb] at hhead
  simpa using hhead

/-! ## 2. The text of a body -/

/-- **The text `block` is the body of the method**: when the declarations of the source have been
    read, the body is left to be read from its token number `i` on, and the brace that closes it has
    the number `j`. Where the first one stands, `block` begins; behind the second one comes `post`. -/
structure BodyText (source : String) (m : MethodId) (pre block post : String) : Prop where
  text : source = pre ++ block ++ post
  place : ∃ tokens i j, lex source = .ok tokens ∧ Reader.LeavesBody tokens m (tokens.drop i) ∧
    Reader.skipBlock? 1 (tokens.drop (i + 1)) = some (tokens.drop (j + 1)) ∧
    (places 0 source.toList)[i]? = some (block.toList ++ post.toList) ∧
    (places 0 source.toList)[j]? = some ('}' :: post.toList)

/-- **A text is cut at the braces of a block**: `u` stands before it, `w` and a brace are the block,
    and `z` stands behind it. -/
structure BlockCut (cs : List Char) (front inner back : List LineToken) (opening closing : LineToken)
    (u w z : List Char) : Prop where
  chars : cs = u ++ (w ++ '}' :: z)
  opened : (places 0 cs)[front.length]? = some (w ++ '}' :: z)
  closed : (places 0 cs)[front.length + (inner.length + 1)]? = some ('}' :: z)
  behind : scan closing.line 0 z = .ok back
  before : ∀ v, scan 1 0 (u ++ '{' :: v) = (scan opening.line 0 ('{' :: v)).map (front ++ ·)

theorem exists_blockCut {cs : List Char} {front inner back : List LineToken}
    {opening closing : LineToken}
    (h : scan 1 0 cs = .ok (front ++ opening :: (inner ++ closing :: back)))
    (hopen : opening.token = .mark .leftBrace) (hclose : closing.token = .mark .rightBrace) :
    ∃ u w z, BlockCut cs front inner back opening closing u w z := by
  have hopen : brace? opening.token = some '{' := by
    rw [hopen]
    rfl
  have hclose : brace? closing.token = some '}' := by
    rw [hclose]
    rfl
  obtain ⟨u, v, rfl, -, hplaces, hscan, hcut⟩ := scan_cut hopen h
  rw [← List.cons_append] at hscan
  obtain ⟨w, z, hw, -, hplaces', hscan', -⟩ := scan_cut hclose hscan
  rw [scan_brace hclose] at hscan'
  obtain ⟨back', hback, heq⟩ := map_eq_ok hscan'
  obtain ⟨-, rfl⟩ := List.cons.inj heq
  refine ⟨u, w, z, ⟨?_, ?_, ?_, hback, hcut⟩⟩
  · rw [hw]
  · rw [← hw]
    exact getElem?_places hopen hplaces
  · rw [← List.getElem?_drop, hplaces]
    exact getElem?_places hclose hplaces'

/-- The tokens of a block that is left, by its place. -/
theorem exists_block {tokens back : List LineToken} {i : Nat}
    (hblock : Reader.Block (tokens.drop i) (tokens.drop i))
    (hskip : Reader.skipBlock? 1 (tokens.drop (i + 1)) = some back) :
    ∃ front line inner closing, front.length = i ∧
      tokens = front ++ ⟨.mark .leftBrace, line⟩ :: (inner ++ closing :: back) ∧
      Reader.skipBlock? 1 (inner ++ closing :: back) = some back ∧
      closing.token = .mark .rightBrace := by
  obtain ⟨line, -, rest, -, hdrop, -⟩ := hblock
  have hrest : tokens.drop (i + 1) = rest := by
    rw [← List.drop_drop, hdrop]
    rfl
  rw [hrest] at hskip
  obtain ⟨c, rfl, hc⟩ := Reader.skipBlock?_split hskip
  obtain ⟨inner, closing, rfl, hclosing⟩ := exists_close hc
  rw [List.append_assoc, List.singleton_append] at hdrop hskip
  refine ⟨tokens.take i, line, inner, closing, ?_, ?_, hskip, hclosing⟩
  · refine List.length_take_of_le (Nat.le_of_not_lt fun hlt => ?_)
    rw [List.drop_eq_nil_of_le (Nat.le_of_lt hlt)] at hdrop
    cases hdrop
  · rw [← hdrop, List.take_append_drop]

variable {source pre block post : String} {p : Program} {m : MethodId}

/-- **The body of every method with statements stands somewhere in the text.** -/
theorem exists_bodyText (h : ofSource source = .ok p) (hbody : (p.methodAt m).hasBody = true) :
    ∃ pre block post, BodyText source m pre block post := by
  obtain ⟨tokens, hlex, hp⟩ := ofSource_eq_ok.mp h
  obtain ⟨-, hscan⟩ := lex_eq_ok.mp hlex
  have hspelled := spelled_of_lex hlex
  have hended := ended_of_scan hscan
  obtain ⟨T, hleft⟩ := Reader.exists_leavesBody hspelled hended hp hbody
  obtain ⟨-, ⟨front, rfl⟩, hblock⟩ := hleft.inside hspelled hended hp
  obtain ⟨line, -, rest, -, rfl, -, -, c, -, back, -, rfl, -, -, hskip⟩ := hblock
  obtain ⟨inner, closing, rfl, hclosing⟩ := exists_close hskip
  have hskip := Reader.skipBlock?_append hskip back
  rw [List.append_assoc, List.singleton_append] at hscan hlex hleft hskip
  obtain ⟨u, w, z, hcut⟩ := exists_blockCut hscan rfl hclosing
  have hinner : (front ++ ⟨.mark .leftBrace, line⟩ :: (inner ++ closing :: back)).drop
      (front.length + 1) = inner ++ closing :: back := by
    rw [← List.drop_drop, List.drop_left]
    rfl
  have hback : (front ++ ⟨.mark .leftBrace, line⟩ :: (inner ++ closing :: back)).drop
      (front.length + (inner.length + 1) + 1) = back := by
    rw [Nat.add_right_comm, ← List.drop_drop, hinner, ← List.drop_drop, List.drop_left]
    rfl
  refine ⟨String.ofList u, String.ofList (w ++ ['}']), String.ofList z, ⟨?_, ?_⟩⟩
  · rw [← String.ofList_append, ← String.ofList_append, ← String.ofList_toList (s := source),
      hcut.chars]
    simp
  · refine ⟨_, front.length, front.length + (inner.length + 1), hlex, ?_, ?_, ?_, ?_⟩
    · rw [List.drop_left]
      exact hleft
    · rw [hinner, hback]
      exact hskip
    · rw [hcut.opened]
      simp
    · rw [hcut.closed]
      simp

/-- **The text with the printed body in place of the body gives a program that is alike.** -/
theorem BodyText.read_back (htext : BodyText source m pre block post) (h : ofSource source = .ok p)
    (hplain : ∀ stmt ∈ (p.methodAt m).stmts, stmt.Unambiguous p m) :
    ∃ q d, ofSource (pre ++ p.printedBody m ++ post) = .ok q ∧ Alike d p q := by
  obtain ⟨rfl, tokens, i, j, hlex, hleft, hskip, hplace, hplace'⟩ := htext
  obtain ⟨_, hlex', hp⟩ := ofSource_eq_ok.mp h
  cases hlex.symm.trans hlex'
  obtain ⟨hascii, hscan⟩ := lex_eq_ok.mp hlex
  have hspelled := spelled_of_lex hlex
  have hended := ended_of_scan hscan
  obtain ⟨hm, -, hblock⟩ := hleft.inside hspelled hended hp
  have hfilled := filled_of_ofSource h
  generalize hrest : tokens.drop (j + 1) = rest at hskip
  obtain ⟨front, line, inner, closing, rfl, rfl, hskip, hclosing⟩ := exists_block hblock hskip
  have hj : j = front.length + (inner.length + 1) := by
    -- the text does not end with the block
    have hmore : rest.length ≠ 0 := fun hnil => by
      obtain ⟨init, last, hlast, heof⟩ := hended
      rw [List.length_eq_zero_iff.mp hnil, ← List.cons_append, ← List.append_assoc] at hlast
      obtain ⟨-, heq⟩ := List.append_inj' hlast rfl
      cases heq
      rw [hclosing] at heof
      cases heof
    have hlength := congrArg List.length hrest
    simp only [List.length_append, List.length_cons, List.length_drop] at hlength hmore
    omega
  obtain ⟨u, w, z, hcut⟩ := exists_blockCut hscan rfl hclosing
  have hw : w ++ '}' :: z = block.toList ++ post.toList :=
    Option.some.inj (hcut.opened.symm.trans hplace)
  obtain rfl : z = post.toList := by
    rw [hj, hcut.closed] at hplace'
    exact (List.cons.inj (Option.some.inj hplace')).2
  obtain rfl : u = pre.toList := by
    have hchars := hcut.chars
    rw [hw, String.toList_append, String.toList_append, List.append_assoc] at hchars
    exact (List.append_cancel_right hchars).symm
  -- the new text
  obtain ⟨line', printed, hprinted, hemits⟩ := emits_printedBody hfilled hm line post.toList
  obtain ⟨back, hback, hsame⟩ := scan_line hcut.behind line'
  have hlexed : lex (pre ++ p.printedBody m ++ post) = .ok (front ++ (printed ++ back)) := by
    refine lex_eq_ok.mpr ⟨?_, ?_⟩
    · simp only [String.toList_append, isAscii_append] at hascii ⊢
      exact ⟨⟨hascii.1.1, isAscii_printedBody hfilled hm⟩, hascii.2⟩
    · rw [String.toList_append, String.toList_append, List.append_assoc, toList_printedBody,
        List.cons_append, hcut.before, ← List.cons_append, ← toList_printedBody, hemits, hback]
      rfl
  rw [List.drop_left] at hleft
  obtain ⟨q, d, hq, halike⟩ := Reader.ofTokens_printed hspelled hended (spelled_of_lex hlexed) hp
    hleft (jumpsInside_of_ofSource h) hplain rfl hskip rfl hprinted (forall₂_sameToken hsame)
  exact ⟨q, d, ofSource_eq_ok.mpr ⟨_, hlexed, hq⟩, halike⟩

/-! ## 3. Bodies that are read back -/

/-- **Printed statements are read back as themselves.** Between the braces of a printed method stand
    the lines of its statements. The body of every method with statements has a place in the source;
    with the variables of the method and these lines in its place, the source is accepted, and the
    method has the same variables and the same statements, with the same jumps. All else is the same
    as well. -/
theorem printed_statements_read_back {source : String} {p : Program} (h : ofSource source = .ok p)
    {m : MethodId} (hplain : ∀ stmt ∈ (p.methodAt m).stmts, stmt.Unambiguous p m) :
    p.methodText m (fun _ => none) = p.signature m ++ " \x7b\n" ++ p.bodyLines m ++ "\x7d\n" ∧
    ((p.methodAt m).hasBody = true → ∃ pre block post, BodyText source m pre block post) ∧
    ∀ pre block post, BodyText source m pre block post → ∃ q d,
      ofSource (pre ++ ("\x7b\n" ++ String.join ((p.methodAt m).locals.map p.declText) ++
        p.bodyLines m ++ "\x7d") ++ post) = .ok q ∧
      (q.methodAt m).vars = (p.methodAt m).vars ∧
      List.Forall₂ (StmtOf.Alike p q Eq) (p.methodAt m).stmts (q.methodAt m).stmts ∧
      Alike d p q := by
  refine ⟨p.methodText_eq m, exists_bodyText h, fun pre block post htext => ?_⟩
  obtain ⟨q, d, hq, halike⟩ := htext.read_back h hplain
  exact ⟨q, d, hq, halike.methodVars m, halike.bodies m, halike⟩

/-- A method with jumps, a call, an array, a negative constant, and a static field that is reached
    through a class below the one that declares it. -/
def winding : String :=
  "class A \x7b static field int f; \x7d
  class B extends A \x7b
    static method int main(int n) \x7b
      var int x; var int[] a;
      a = new int[n];
      again: x = B.f;
      a[n] = x;
      if x == n goto again;
      switch (x) \x7b case -1: again; default: out; \x7d
      out: x = staticinvoke <B: int main( int )>(x);
      return x;
    \x7d
  \x7d"

set_option maxRecDepth 4000 in
theorem printed_statements_read_back_winding :
    ∃ p, ofSource winding = .ok p ∧ (p.methodAt 0).stmts.length = 7 ∧
      (∀ stmt ∈ (p.methodAt 0).stmts, stmt.Unambiguous p 0) ∧
      ∃ pre block post, BodyText winding 0 pre block post ∧ ∃ q d,
        ofSource (pre ++ p.printedBody 0 ++ post) = .ok q ∧ Alike d p q := by
  obtain ⟨p, hp, h⟩ := Program.exists_of_any_ofSource winding (fun p => decide (
      (p.methodAt 0).stmts.length = 7 ∧ (p.methodAt 0).hasBody = true ∧
        ∀ stmt ∈ (p.methodAt 0).stmts, stmt.Unambiguous p 0)) (by
    have htext : winding.toList = _ := String.toList_ofList
    rw [Program.ofSource, lex_eq htext]
    decide +kernel)
  obtain ⟨hlength, hbody, hplain⟩ := of_decide_eq_true h
  obtain ⟨-, hplace, hread⟩ := printed_statements_read_back hp hplain
  obtain ⟨pre, block, post, htext⟩ := hplace hbody
  obtain ⟨q, d, hq, -, -, halike⟩ := hread pre block post htext
  exact ⟨p, hp, hlength, hplain, pre, block, post, htext, q, d, hq, halike⟩

/-- A variable has the name of the class that declares a static field; the field is reached through
    the class below. -/
def hiddenClass : String :=
  "class A \x7b static field int f; \x7d
  class B extends A \x7b
    static method void main() \x7b var int A, x; x = B.f; return; \x7d
  \x7d"

/-- What stands before the body. -/
def hiddenClassHead : String :=
  "class A \x7b static field int f; \x7d
  class B extends A \x7b
    static method void main() "

/-- The body is printed with the field reached through the class that declares it. -/
def hiddenClassPrinted : String :=
  "class A \x7b static field int f; \x7d
  class B extends A \x7b
    static method void main() \x7b
  var int A;
  var int x;
  x = A.f;
  return;
\x7d
  \x7d"

set_option maxRecDepth 4000 in
theorem bodyText_hiddenClass :
    BodyText hiddenClass 0 hiddenClassHead
      "\x7b var int A, x; x = B.f; return; \x7d" "\n  \x7d" := by
  have htext : hiddenClass.toList = _ := String.toList_ofList
  have hblock : "\x7b var int A, x; x = B.f; return; \x7d".toList = _ := String.toList_ofList
  have hpost : "\n  \x7d".toList = _ := String.toList_ofList
  obtain ⟨tokens, hlex, h⟩ := exists_of_any_lex hiddenClass (fun tokens => decide (
      Reader.LeavesBody tokens 0 (tokens.drop 20) ∧
        Reader.skipBlock? 1 (tokens.drop 21) = some (tokens.drop 36))) (by
    rw [lex_eq htext]
    decide +kernel)
  obtain ⟨hleft, hskip⟩ := of_decide_eq_true h
  refine ⟨by decide +kernel, tokens, 20, 35, hlex, hleft, hskip, ?_, ?_⟩
  · rw [htext, hblock, hpost]
    decide +kernel
  · rw [htext, hpost]
    decide +kernel

set_option maxRecDepth 4000 in
/-- Where the class is meant, the variable is read: the text is refused. -/
theorem hidden_class_is_not_read_back :
    ∃ p pre block post, ofSource hiddenClass = .ok p ∧ (p.methodAt 0).hasBody = true ∧
      BodyText hiddenClass 0 pre block post ∧
      ∀ q, ofSource (pre ++ p.printedBody 0 ++ post) ≠ .ok q := by
  obtain ⟨p, hp, h⟩ := Program.exists_of_any_ofSource hiddenClass (fun p => decide (
      (p.methodAt 0).hasBody = true ∧
        hiddenClassHead ++ p.printedBody 0 ++ "\n  \x7d" = hiddenClassPrinted)) (by
    have htext : hiddenClass.toList = _ := String.toList_ofList
    rw [Program.ofSource, lex_eq htext]
    decide +kernel)
  obtain ⟨hbody, hprinted⟩ := of_decide_eq_true h
  have hrefused : (ofSource hiddenClassPrinted).toOption = none := by
    have htext : hiddenClassPrinted.toList = _ := String.toList_ofList
    rw [Program.ofSource, lex_eq htext]
    decide +kernel
  refine ⟨p, _, _, _, hp, hbody, bodyText_hiddenClass, fun q hq => ?_⟩
  rw [hprinted] at hq
  rw [hq] at hrefused
  cases hrefused

end ObjectFlow
