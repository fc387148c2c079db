import SparseDot.Main
import SparseDot.Text.Json.Reader
import SparseDot.Timing.Session
import SparseDot.Proofs.Kernel.Accuracy
import SparseDot.Proofs.Kernel.Faults
import SparseDot.Proofs.Kernel.Bytes
import SparseDot.Proofs.Kernel.Ordered
import SparseDot.Proofs.Numeric.Order
import SparseDot.Proofs.Numeric.Quotient
import SparseDot.Proofs.Numeric.Monotone
import SparseDot.Proofs.Kernel.Quantization
import SparseDot.Proofs.Kernel.Codes
import SparseDot.Proofs.Timing.Gathering
import SparseDot.Proofs.Timing.Retry
import SparseDot.Proofs.Timing.Interleaving
import SparseDot.Proofs.Timing.Poisoning
import SparseDot.Proofs.Timing.Ledger
import SparseDot.Proofs.Timing.Shares
import SparseDot.Proofs.Bench.Schedule
import SparseDot.Proofs.Bench.Counting
import SparseDot.Proofs.Numeric.NumberClass
import SparseDot.Proofs.Numeric.Summation
import SparseDot.Proofs.Kernel.Specials
import SparseDot.Proofs.Kernel.Skipping
import SparseDot.Proofs.Kernel.Sorting
import SparseDot.Proofs.Timing.Conservation
import SparseDot.Proofs.Numeric.Absorption
import SparseDot.Proofs.Timing.Milliseconds
import SparseDot.Proofs.Timing.Figures
import SparseDot.Proofs.Timing.Percentages
import SparseDot.Proofs.Timing.Reachable
import SparseDot.Proofs.Text.Stripping
import SparseDot.Proofs.Timing.Colours
import SparseDot.Proofs.Text.Words
import SparseDot.Proofs.Timing.TreeReading
import SparseDot.Proofs.Bench.Vectors
import SparseDot.Proofs.Numeric.Multiples
import SparseDot.Proofs.Timing.ReadBack
import SparseDot.Proofs.Bench.Checksum
import SparseDot.Proofs.Bench.Arguments
import SparseDot.Proofs.Bench.TotalTime
