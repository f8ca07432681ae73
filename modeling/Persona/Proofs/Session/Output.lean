import Persona.Session.Output

/-! What is kept of what is written.

An output keeps the longest front of all that is written to it that has no more bytes than its cap, and tells whether
that is all of it. In which pieces it is written makes no difference. -/
namespace Persona.Output

/-- The longest front of a text, in whole characters, that has at most `cap` bytes. -/
structure Keeps (cap : Nat) (all text : String) : Prop where
  front : text.toList <+: all.toList
  fits : text.utf8ByteSize ≤ cap
  longest : ∀ other : String, other.toList <+: all.toList → other.utf8ByteSize ≤ cap → other.toList <+: text.toList

/-- An output of this cap has kept what it should of all that was written, and knows whether it has cut. -/
structure Shows (cap : Nat) (all : String) (o : Output) : Prop where
  cap_eq : o.cap = cap
  keeps : Keeps cap all o.text
  cut : o.isTruncated = true ↔ cap < all.utf8ByteSize

/-! ### Fronts of a text -/

theorem size_le_of_front {s t : String} (h : s.toList <+: t.toList) : s.utf8ByteSize ≤ t.utf8ByteSize := by
  obtain ⟨rest, hrest⟩ := h
  have ht : t = s ++ String.ofList rest := String.toList_inj.1 (by simp [hrest])
  rw [ht, String.utf8ByteSize_append]
  exact Nat.le_add_right ..

/-- Of two fronts of one text, the one with fewer bytes is a front of the other. -/
theorem front_of_size_lt {s t all : String} (hs : s.toList <+: all.toList) (ht : t.toList <+: all.toList)
    (hlt : s.utf8ByteSize < t.utf8ByteSize) : s.toList <+: t.toList := by
  rcases List.prefix_or_prefix_of_prefix hs ht with h | h
  · exact h
  · exact absurd (size_le_of_front h) (Nat.not_le.2 hlt)

theorem front_append (s t : String) : s.toList <+: (s ++ t).toList := by
  rw [String.toList_append]
  exact List.prefix_append ..

namespace Keeps

variable {cap : Nat} {all text : String}

/-- What fits is kept whole. -/
theorem self (h : all.utf8ByteSize ≤ cap) : Keeps cap all all := ⟨List.prefix_rfl, h, fun _ hother _ => hother⟩

theorem eq_of_le (h : Keeps cap all text) (hle : all.utf8ByteSize ≤ cap) : text = all := by
  have hall := h.longest all List.prefix_rfl hle
  exact String.toList_inj.1 (h.front.eq_of_length_le hall.length_le)

/-- A text that is cut is kept the same with more behind it. -/
theorem append (h : Keeps cap all text) (hlt : cap < all.utf8ByteSize) (s : String) : Keeps cap (all ++ s) text where
  front := h.front.trans (front_append all s)
  fits := h.fits
  longest other hother hfits :=
    h.longest other (front_of_size_lt hother (front_append all s) (Nat.lt_of_le_of_lt hfits hlt)) hfits

/-- There is only one longest front. -/
theorem unique {text' : String} (h : Keeps cap all text) (h' : Keeps cap all text') : text = text' :=
  String.toList_inj.1 ((h'.longest text h.front h.fits).eq_of_length_le (h.longest text' h'.front h'.fits).length_le)

end Keeps

/-! ### Writing -/

/-- What is filled in is the longest front of the characters that fits. -/
theorem keeps_fill (cs : List Char) (text : String) (room : Nat) :
    Keeps (text.utf8ByteSize + room) (text ++ String.ofList cs) (fill text room cs) := by
  induction cs generalizing text room with
  | nil =>
    rw [String.ofList_nil, String.append_empty]
    exact .self (Nat.le_add_right ..)
  | cons c cs ih =>
    have hpush : text.push c ++ String.ofList cs = text ++ String.ofList (c :: cs) := String.toList_inj.1 (by simp)
    have hsize : (text.push c).utf8ByteSize = text.utf8ByteSize + c.utf8Size := String.utf8ByteSize_push
    unfold fill
    split
    · next hfits =>
      have hrest := ih (text.push c) (room - c.utf8Size)
      rwa [hpush, hsize, Nat.add_assoc, Nat.add_sub_cancel' hfits] at hrest
    · next hfits =>
      -- The character is the first of a front that does not fit.
      have hfull : Keeps (text.utf8ByteSize + room) (text.push c) text := by
        refine ⟨?_, Nat.le_add_right .., fun other hother hsmall => ?_⟩
        · rw [String.toList_push]
          exact List.prefix_append ..
        · rw [String.toList_push] at hother
          rcases List.prefix_concat_iff.1 hother with heq | hfront
          · have : other = text.push c := String.toList_inj.1 (by simp [heq])
            rw [this, hsize] at hsmall
            omega
          · exact hfront
      rw [← hpush]
      exact hfull.append (by omega) _

/-- A piece is added to what was written before it. -/
theorem shows_write {cap : Nat} {all : String} {o : Output} (h : Shows cap all o) (s : String) :
    Shows cap (all ++ s) (o.write s) := by
  have hsize : (all ++ s).utf8ByteSize = all.utf8ByteSize + s.utf8ByteSize := String.utf8ByteSize_append
  obtain ⟨rfl, hkeeps, hcut⟩ := h
  unfold write
  dsimp only
  split
  · next htruncated =>
    have hlt := hcut.1 htruncated
    exact ⟨rfl, hkeeps.append hlt s, iff_of_true htruncated (by omega)⟩
  next hwhole =>
  have hle : all.utf8ByteSize ≤ o.cap := Nat.not_lt.1 fun hlt => hwhole (hcut.2 hlt)
  rw [hkeeps.eq_of_le hle]
  split
  · next hfits => exact ⟨rfl, .self (by omega), iff_of_false hwhole (by omega)⟩
  · next hfits =>
    have hfill := keeps_fill s.toList all (o.cap - all.utf8ByteSize)
    rw [String.ofList_toList, Nat.add_sub_cancel' hle] at hfill
    exact ⟨rfl, hfill, iff_of_true rfl (by omega)⟩

/-- Pieces are added one after the other. -/
theorem shows_writes {cap : Nat} {all : String} {o : Output} (h : Shows cap all o) (pieces : List String) :
    Shows cap (all ++ String.join pieces) (pieces.foldl write o) := by
  induction pieces generalizing o all with
  | nil => simpa using h
  | cons s pieces ih =>
    rw [String.join_cons, ← String.append_assoc]
    exact ih (shows_write h s)

/-- An output keeps the longest front of all that is written that fits, and is cut exactly if that is not all of it.
Other pieces of the same text give the same. -/
theorem keeps_of_writes (cap : Nat) (pieces : List String) :
    Keeps cap (String.join pieces) (pieces.foldl write ⟨cap, "", false⟩).text ∧
    ((pieces.foldl write ⟨cap, "", false⟩).isTruncated = true ↔ cap < (String.join pieces).utf8ByteSize) ∧
    ∀ pieces', String.join pieces' = String.join pieces →
      (pieces'.foldl write ⟨cap, "", false⟩).text = (pieces.foldl write ⟨cap, "", false⟩).text ∧
      (pieces'.foldl write ⟨cap, "", false⟩).isTruncated = (pieces.foldl write ⟨cap, "", false⟩).isTruncated := by
  have hall (pieces : List String) : Shows cap (String.join pieces) (pieces.foldl write ⟨cap, "", false⟩) := by
    have hstart : Shows cap "" ⟨cap, "", false⟩ := ⟨rfl, .self (Nat.zero_le _), by simp⟩
    simpa using shows_writes hstart pieces
  refine ⟨(hall pieces).keeps, (hall pieces).cut, fun pieces' hjoin => ?_⟩
  have hother := hall pieces'
  rw [hjoin] at hother
  exact ⟨hother.keeps.unique (hall pieces).keeps, Bool.eq_iff_iff.2 (hother.cut.trans (hall pieces).cut.symm)⟩

/-- The `é` has two bytes, of which the cap leaves room for one, and nothing is taken behind it. -/
theorem keeps_of_writes_accent : String.join ["abc", "", "dé!", "e"] = String.join ["abcd", "é!e"] ∧
    Keeps 5 "abcdé!e" "abcd" ∧ (["abcd", "é!e"].foldl write ⟨5, "", false⟩).text = "abcd" ∧
    (["abcd", "é!e"].foldl write ⟨5, "", false⟩).isTruncated = true := by
  have hjoin : String.join ["abc", "", "dé!", "e"] = String.join ["abcd", "é!e"] := by decide
  obtain ⟨hkeeps, -, hpieces⟩ := keeps_of_writes 5 ["abc", "", "dé!", "e"]
  obtain ⟨htext, hcut⟩ := hpieces ["abcd", "é!e"] hjoin.symm
  have hfirst : ["abc", "", "dé!", "e"].foldl write ⟨5, "", false⟩ = ⟨5, "abcd", true⟩ := by rfl
  have hall : String.join ["abc", "", "dé!", "e"] = "abcdé!e" := by decide
  rw [hfirst] at hkeeps htext hcut
  rw [hall] at hkeeps
  exact ⟨hjoin, hkeeps, htext, hcut⟩

end Persona.Output
