import PrefixForth.Main
import PrefixForth.NestedText
import PrefixForth.NestedText.Inline
import PrefixForth.NestedText.Line
import PrefixForth.Proofs.Batch
import PrefixForth.Proofs.Diagnosis
import PrefixForth.Proofs.Forth.Lines
import PrefixForth.Proofs.Forth.Literal
import PrefixForth.Proofs.Forth.Power
import PrefixForth.Proofs.Forth.Precedence
import PrefixForth.Proofs.Forth.Residue
import PrefixForth.Proofs.Forth.Symbols
import PrefixForth.Proofs.Forth.Typing
import PrefixForth.Proofs.LifeCycle
import PrefixForth.Proofs.Meaning
import PrefixForth.Proofs.Session
import PrefixForth.Proofs.Tree.Dump
import PrefixForth.Proofs.Tree.Mismatch
import PrefixForth.Proofs.Tree.Termination
import PrefixForth.Proofs.Tree.Truncation
