import Verbatim.Terminal.Text

namespace Verbatim.Terminal

open List

namespace Text

variable {text p q s : Text} {n : Nat}

@[simp] theorem bytes_nil : bytes []=0 := rfl

@[simp] theorem bytes_cons (c : Char) (s : Text) : bytes (c::s)=c.utf8Size+bytes s := rfl

@[simp] theorem bytes_append (p s : Text) : bytes (p++s)=bytes p+bytes s := by simp [bytes]

theorem bytes_eq_zero : bytes p=0 ↔ p=[] := by
  cases p with
  | nil => simp
  | cons c p => simp [(Char.utf8Size_pos c).ne']

theorem dropBytes_cons (c : Char) (text : Text) (n : Nat) :
    dropBytes (c::text) (c.utf8Size+n)=dropBytes text n := by
  obtain ⟨size,hsize⟩ := Nat.exists_eq_succ_of_ne_zero (Char.utf8Size_pos c).ne'
  rw [show c.utf8Size+n=size+n+1 by omega,dropBytes,if_pos (by omega)]
  exact congrArg _ (by omega)

theorem takeBytes_cons (c : Char) (text : Text) (n : Nat) :
    takeBytes (c::text) (c.utf8Size+n)=(takeBytes text n).map (c::·) := by
  obtain ⟨size,hsize⟩ := Nat.exists_eq_succ_of_ne_zero (Char.utf8Size_pos c).ne'
  rw [show c.utf8Size+n=size+n+1 by omega,takeBytes,if_pos (by omega)]
  exact congrArg (fun n => (takeBytes text n).map (c::·)) (by omega)

theorem dropBytes_append (p s : Text) : dropBytes (p++s) (bytes p)=some s := by
  induction p with
  | nil => cases s <;> rfl
  | cons c p ih => rw [bytes_cons,cons_append,dropBytes_cons,ih]

theorem takeBytes_append (p s : Text) : takeBytes (p++s) (bytes p)=some p := by
  induction p with
  | nil => cases s <;> rfl
  | cons c p ih => rw [bytes_cons,cons_append,takeBytes_cons,ih,Option.map_some]

theorem dropBytes_eq_some : dropBytes text n=some s ↔ ∃ p, text=p++s ∧ bytes p=n := by
  refine ⟨fun h => ?_,?_⟩
  · fun_induction dropBytes text n with
    | case1 text => exact ⟨[],by simpa using h,rfl⟩
    | case2 | case4 => cases h
    | case3 c text count hle ih =>
      obtain ⟨p,rfl,hp⟩ := ih h
      exact ⟨c::p,rfl,by rw [bytes_cons]; omega⟩
  · rintro ⟨p,rfl,rfl⟩
    exact dropBytes_append p s

theorem takeBytes_eq_some : takeBytes text n=some p ↔ ∃ s, text=p++s ∧ bytes p=n := by
  refine ⟨fun h => ?_,?_⟩
  · fun_induction takeBytes text n generalizing p with
    | case1 text =>
      cases h
      exact ⟨text,rfl,rfl⟩
    | case2 | case4 => cases h
    | case3 c text count hle ih =>
      obtain ⟨q,hq,rfl⟩ := Option.map_eq_some_iff.mp h
      obtain ⟨s,rfl,hbytes⟩ := ih hq
      exact ⟨s,rfl,by rw [bytes_cons]; omega⟩
  · rintro ⟨s,rfl,rfl⟩
    exact takeBytes_append p s

end Text

theorem textIn_append (p x s : Text) : textIn (p++x++s) p.bytes (p.bytes+x.bytes)=x := by
  simp [textIn,Text.dropBytes_append,Text.takeBytes_append]

end Verbatim.Terminal
