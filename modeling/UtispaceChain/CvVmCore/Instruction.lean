import Mathlib.Tactic.Common
import UtispaceChain.Lib.BigEndian

/-! The instructions of the VM, with what they take from the stack and put there. -/

namespace UtispaceChain.Evm

/-- `push n` is `PUSH1` and so on, as are `dup` and `swap`; `log n` has `n` topics. -/
inductive Instruction
  | stop | add | mul | sub | div | sdiv | mod | smod | addmod | mulmod | exp | signextend
  | lt | gt | slt | sgt | eq | iszero | and | or | xor | not | byte
  | sha3 | ethcall
  | address | balance | origin | caller | callvalue | calldataload | calldatasize | calldatacopy
  | codesize | codecopy | gasprice | extcodesize | extcodecopy
  | blockhash | coinbase | timestamp | number | difficulty | gaslimit
  | jumpto | jumpif | jumpv | jumpsub | jumpsubv | returnsub
  | pop | mload | mstore | mstore8 | sload | sstore | jump | jumpi | pc | msize | gas | jumpdest
  | beginsub | begindata
  | push (n : Fin 32) | dup (n : Fin 16) | swap (n : Fin 16) | log (n : Fin 5)
  | pushc | jumpc | jumpci | bad
  | create | call | callcode | return | delegatecall | suicide
  | other
  deriving DecidableEq, Repr

inductive Tier
  | zero | base | veryLow | low | mid | high | ext | special | invalid
  deriving DecidableEq, Repr

structure InstructionInfo where
  args : Nat
  ret : Nat
  gasPriceTier : Tier
  deriving DecidableEq, Repr

namespace Instruction

def ofCode : Nat → Instruction
  | 0x00 => stop | 0x01 => add | 0x02 => mul | 0x03 => sub | 0x04 => div | 0x05 =>
      sdiv | 0x06 => mod
  | 0x07 => smod | 0x08 => addmod | 0x09 => mulmod | 0x0a => exp | 0x0b => signextend
  | 0x10 => lt | 0x11 => gt | 0x12 => slt | 0x13 => sgt | 0x14 => eq | 0x15 => iszero | 0x16 => and
  | 0x17 => or | 0x18 => xor | 0x19 => not | 0x1a => byte | 0x20 => sha3 | 0x2f => ethcall
  | 0x30 => address | 0x31 => balance | 0x32 => origin | 0x33 => caller | 0x34 => callvalue
  | 0x35 => calldataload | 0x36 => calldatasize | 0x37 => calldatacopy | 0x38 => codesize
  | 0x39 => codecopy | 0x3a => gasprice | 0x3b => extcodesize | 0x3c => extcodecopy
  | 0x40 => blockhash | 0x41 => coinbase | 0x42 => timestamp | 0x43 => number | 0x44 => difficulty
  | 0x45 => gaslimit | 0x4a => jumpto | 0x4b => jumpif | 0x4c => jumpv | 0x4d => jumpsub
  | 0x4e => jumpsubv | 0x4f => returnsub | 0x50 => pop | 0x51 => mload | 0x52 => mstore
  | 0x53 => mstore8 | 0x54 => sload | 0x55 => sstore | 0x56 => jump | 0x57 => jumpi | 0x58 => pc
  | 0x59 => msize | 0x5a => gas | 0x5b => jumpdest | 0x5c => beginsub | 0x5d => begindata
  | 0xac => pushc | 0xad => jumpc | 0xae => jumpci | 0xaf => bad
  | 0xf0 => create | 0xf1 => call | 0xf2 => callcode | 0xf3 => .return | 0xf4 => delegatecall
  | 0xff => suicide
  | _ => other

def ofByte (b : UInt8) : Instruction :=
  let n := b.toNat
  if push_ : 0x60 ≤ n ∧ n < 0x80 then push ⟨n - 0x60, by omega⟩
  else if dup_ : 0x80 ≤ n ∧ n < 0x90 then dup ⟨n - 0x80, by omega⟩
  else if swap_ : 0x90 ≤ n ∧ n < 0xa0 then swap ⟨n - 0x90, by omega⟩
  else if log_ : 0xa0 ≤ n ∧ n < 0xa5 then log ⟨n - 0xa0, by omega⟩
  else ofCode n

/-- `c_instructionInfo`; its entry for `BAD` has the key of `STOP`, which is there already. -/
def info : Instruction → InstructionInfo
  | stop => ⟨0, 0, .zero⟩
  | add | sub => ⟨2, 1, .veryLow⟩
  | mul | div | sdiv | mod | smod | signextend => ⟨2, 1, .low⟩
  | exp | sha3 => ⟨2, 1, .special⟩
  | addmod | mulmod => ⟨3, 1, .mid⟩
  | lt | gt | slt | sgt | eq | and | or | xor | byte => ⟨2, 1, .veryLow⟩
  | not | iszero | calldataload => ⟨1, 1, .veryLow⟩
  | ethcall => ⟨10, 1, .special⟩
  | address | origin | caller | callvalue | calldatasize | codesize | gasprice => ⟨0, 1, .base⟩
  | coinbase | timestamp | number | difficulty | gaslimit | pc | msize | gas => ⟨0, 1, .base⟩
  | balance | extcodesize | sload => ⟨1, 1, .special⟩
  | calldatacopy | codecopy => ⟨3, 0, .veryLow⟩
  | extcodecopy => ⟨4, 0, .special⟩
  | blockhash => ⟨1, 1, .ext⟩
  | jumpto => ⟨1, 0, .veryLow⟩
  | jumpif => ⟨2, 0, .low⟩
  | jumpv | jumpsubv | returnsub => ⟨1, 0, .mid⟩
  | jumpsub => ⟨1, 0, .low⟩
  | pop => ⟨1, 0, .base⟩
  | mload => ⟨1, 1, .veryLow⟩
  | mstore | mstore8 => ⟨2, 0, .veryLow⟩
  | sstore => ⟨2, 0, .special⟩
  | jump => ⟨1, 0, .mid⟩
  | jumpi => ⟨2, 0, .high⟩
  | jumpdest | beginsub | begindata => ⟨0, 0, .special⟩
  | push _ => ⟨0, 1, .veryLow⟩
  | dup n => ⟨n + 1, n + 2, .veryLow⟩
  | swap n => ⟨n + 2, n + 2, .veryLow⟩
  | log n => ⟨n + 2, 0, .special⟩
  | create => ⟨3, 1, .special⟩
  | call | callcode => ⟨7, 1, .special⟩
  | .return => ⟨2, 0, .zero⟩
  | delegatecall => ⟨6, 1, .special⟩
  | suicide => ⟨1, 0, .special⟩
  | pushc => ⟨0, 1, .veryLow⟩
  | jumpc => ⟨1, 0, .mid⟩
  | jumpci => ⟨1, 0, .high⟩
  | bad | other => ⟨0, 0, .invalid⟩

def immediate : Instruction → Nat
  | push n => n + 1
  | _ => 0

end Instruction

end UtispaceChain.Evm
