import MsProjects.Os161.Vm.User

/-!
# user の memory との写し

`kern/vm/copyinout.c` の `copycheck`、`copyin`、`copyout`、`copystr`、`copyinstr`。
-/

namespace Os161

/-- user の番地に見える byte と、読める page。 -/
structure UserMem where
  byte : Vaddr → UInt8
  readablePage : Vaddr → Bool

/-- 番地が読めるか。 -/
def UserMem.readable (m : UserMem) (addr : Vaddr) : Bool := m.readablePage (addr &&& pageFrame)

/-- `copycheck`。 -/
def copycheckStop (userptr : Vaddr) (len : UInt32) : Except Errno UInt32 :=
  let top := userptr + len - 1
  if top < userptr then .error .efault
  else if userspacetop ≤ userptr then .error .efault
  else if userspacetop ≤ top then .ok (userspacetop - userptr)
  else .ok len

/-- `memcpy(dest, usersrc, len)`。 -/
def UserMem.load (m : UserMem) : Nat → Vaddr → Except Errno Unit × List UInt8
  | 0, _ => (.ok (), [])
  | n + 1, addr =>
    if m.readable addr = false then (.error .efault, [])
    else
      let rest := m.load n (addr + 1)
      (rest.1, m.byte addr :: rest.2)

/-- `memcpy(userdest, src, len)`。 -/
def UserMem.store (m : UserMem) : List UInt8 → Vaddr → Except Errno Unit × UserMem
  | [], _ => (.ok (), m)
  | b :: src, addr =>
    if m.readable addr = false then (.error .efault, m)
    else UserMem.store { m with byte := Function.update m.byte addr b } src (addr + 1)

def copyin (m : UserMem) (usersrc : Vaddr) (len : UInt32) : Except Errno Unit × List UInt8 :=
  match copycheckStop usersrc len with
  | .error err => (.error err, [])
  | .ok stoplen => if stoplen ≠ len then (.error .efault, []) else m.load len.toNat usersrc

def copyout (m : UserMem) (src : List UInt8) (userdest : Vaddr) : Except Errno Unit × UserMem :=
  match copycheckStop userdest (UInt32.ofNat src.length) with
  | .error err => (.error err, m)
  | .ok stoplen =>
    if stoplen ≠ UInt32.ofNat src.length then (.error .efault, m) else m.store src userdest

/-- `copystr` の loop。 -/
def copystrLoop (m : UserMem) (src : Vaddr) (limit : Errno) : Nat → Nat → Except Errno Nat × List UInt8
  | _, 0 => (.error limit, [])
  | i, n + 1 =>
    let addr := src + UInt32.ofNat i
    if m.readable addr = false then (.error .efault, [])
    else if m.byte addr = 0 then (.ok (i + 1), [m.byte addr])
    else
      let rest := copystrLoop m src limit (i + 1) n
      (rest.1, m.byte addr :: rest.2)

def copystr (m : UserMem) (src : Vaddr) (maxlen stoplen : Nat) : Except Errno Nat × List UInt8 :=
  copystrLoop m src (if stoplen < maxlen then .efault else .enametoolong) 0 (min maxlen stoplen)

def copyinstr (m : UserMem) (usersrc : Vaddr) (len : UInt32) : Except Errno Nat × List UInt8 :=
  match copycheckStop usersrc len with
  | .error err => (.error err, [])
  | .ok stoplen => copystr m usersrc len.toNat stoplen.toNat

end Os161
