import Influxdb.Lib.Bytes

/-!
# Gzip — a stream of compressed members

`compress` makes a member of some bytes, and `next` reads the first member of a stream and leaves the rest.  A member may
end too early, or be damaged; the bytes before that can be read.  `Faithful` is what a reader needs: a member gives back
what went into it wherever it stands, and reading it does not depend on what follows.
-/

namespace Influxdb

/-- `io.ErrUnexpectedEOF`, or another error. -/
inductive GzipError
  | unexpectedEOF
  | other (text : String)
deriving DecidableEq

def GzipError.text : GzipError → String
  | .unexpectedEOF => "unexpected EOF"
  | .other text => text

/-- The bytes of a member as far as they can be read, and what follows it or the error that ends it.  With
`unexpectedEOF` all of the stream has been read. -/
structure Member where
  content : List Byte
  rest : Except GzipError (List Byte)

/-- A compressor and a reader of members; the header of a member may have an error, too. -/
structure Gzip where
  compress : List Byte → List Byte
  next : List Byte → Except GzipError Member

namespace Gzip

/-- Members give back what they were made of. -/
structure Faithful (g : Gzip) : Prop where
  next_compress : ∀ x rest, g.next (g.compress x ++ rest) = .ok ⟨x, .ok rest⟩
  next_append : ∀ {b x rest}, g.next b = .ok ⟨x, .ok rest⟩ → ∀ more, g.next (b ++ more) = .ok ⟨x, .ok (rest ++ more)⟩
  next_lt : ∀ {b x rest}, g.next b = .ok ⟨x, .ok rest⟩ → rest.length < b.length

/-- All members as one stream, with fuel for the bytes: what can be read, and the error unless it is `io.EOF`. -/
def readAll (g : Gzip) : ℕ → List Byte → List Byte × Option GzipError
  | 0, _ => ([], none)
  | fuel + 1, b =>
    if b = [] then ([], none)
    else
      match g.next b with
      | .error err => ([], some err)
      | .ok ⟨x, .error err⟩ => (x, some err)
      | .ok ⟨x, .ok rest⟩ =>
        let r := g.readAll fuel rest
        (x ++ r.1, r.2)

/-- A stream of members that are all complete. -/
inductive Whole (g : Gzip) : List Byte → Prop
  | nil : g.Whole []
  | cons {b x rest : List Byte} (h : g.next b = .ok ⟨x, .ok rest⟩) (hrest : g.Whole rest) : g.Whole b

theorem Whole.append {g : Gzip} (hg : g.Faithful) {b : List Byte} (h : g.Whole b) (x : List Byte) :
    g.Whole (b ++ g.compress x) := by
  induction h with
  | nil =>
    have hnext := hg.next_compress x []
    rw [List.append_nil] at hnext
    exact .cons hnext .nil
  | cons hnext _ ih => exact .cons (hg.next_append hnext _) ih

/-- Reads bytes that are each marked with a one, up to a zero. -/
def plainContent : List Byte → Member
  | [] => ⟨[], .error .unexpectedEOF⟩
  | [m] => if m = 0 then ⟨[], .ok []⟩ else ⟨[], .error .unexpectedEOF⟩
  | m :: x :: rest =>
    if m = 0 then ⟨[], .ok (x :: rest)⟩ else ⟨x :: (plainContent rest).content, (plainContent rest).rest⟩

/-- Reads the two bytes in front of a member. -/
def plainNext : List Byte → Except GzipError Member
  | 0x1f :: 0x8b :: b => .ok (plainContent b)
  | [] | [0x1f] => .error .unexpectedEOF
  | _ => .error (.other "gzip: invalid header")

/-- Members that are marked bytes. -/
def plain : Gzip := ⟨fun b => 0x1f :: 0x8b :: (b.flatMap (fun x => [1, x]) ++ [0]), plainNext⟩

theorem plainContent_zero (rest : List Byte) : plainContent (0 :: rest) = ⟨[], .ok rest⟩ := by
  cases rest <;> rfl

theorem plainContent_cases (b : List Byte) : ∀ {x rest : List Byte}, plainContent b = ⟨x, .ok rest⟩ →
    ∃ w, w ≠ [] ∧ b = w ++ rest ∧ ∀ more, plainContent (w ++ more) = ⟨x, .ok more⟩ := by
  fun_induction plainContent b with
  | case1 | case3 m hm => exact fun h => nomatch h
  | case2 | case4 y b =>
    rintro x rest ⟨⟩
    exact ⟨[0], List.cons_ne_nil _ _, rfl, plainContent_zero⟩
  | case5 m y b hm ih =>
    intro x rest h
    obtain ⟨hx, hrest⟩ := Member.mk.inj h
    obtain ⟨w, -, hw, hmore⟩ := @ih (plainContent b).content rest (by rw [← hrest])
    refine ⟨m :: y :: w, List.cons_ne_nil _ _, by rw [hw]; rfl, fun more => ?_⟩
    rw [List.cons_append, List.cons_append, plainContent, if_neg hm, hmore, ← hx]

theorem plainNext_ok {b : List Byte} {m : Member} (h : plainNext b = .ok m) :
    ∃ b', b = 0x1f :: 0x8b :: b' ∧ plainContent b' = m := by
  unfold plainNext at h
  split at h
  case h_1 b' => exact ⟨b', rfl, Except.ok.inj h⟩
  all_goals cases h

theorem plain_faithful : plain.Faithful where
  next_compress x rest := by
    refine congrArg Except.ok ?_
    show plainContent (x.flatMap (fun x => [1, x]) ++ [0] ++ rest) = _
    induction x with
    | nil => exact plainContent_zero rest
    | cons y x ih =>
      simp only [List.flatMap_cons, List.append_assoc, List.cons_append, List.nil_append] at ih ⊢
      rw [plainContent, ih]
      rfl
  next_append h more := by
    obtain ⟨b', rfl, hb⟩ := plainNext_ok h
    obtain ⟨w, -, rfl, hmore⟩ := plainContent_cases _ hb
    refine congrArg Except.ok ?_
    show plainContent (w ++ _ ++ more) = _
    rw [List.append_assoc]
    exact hmore _
  next_lt h := by
    obtain ⟨b', rfl, hb⟩ := plainNext_ok h
    obtain ⟨w, hw, rfl, -⟩ := plainContent_cases _ hb
    simp only [List.length_cons, List.length_append]
    omega

end Gzip

end Influxdb
