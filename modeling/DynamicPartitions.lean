import DynamicPartitions.Properties.Serializability
import DynamicPartitions.Properties.Log
import DynamicPartitions.Properties.Semaphore
import DynamicPartitions.Properties.Spying
import DynamicPartitions.Properties.Listing
import DynamicPartitions.Properties.Removal
import DynamicPartitions.Properties.Signalling
import DynamicPartitions.Program.Prompt
import DynamicPartitions.Properties.Placement
import DynamicPartitions.Program.Random
import DynamicPartitions.Properties.Choices
import DynamicPartitions.Properties.Release
import DynamicPartitions.Properties.Persistence
import DynamicPartitions.Properties.Draining
import DynamicPartitions.Properties.Succession
import DynamicPartitions.Properties.Renewal
import DynamicPartitions.Properties.Tearing
import DynamicPartitions.Properties.LogFile
import DynamicPartitions.Parson.Sizing
import DynamicPartitions.Parson.Strings
import DynamicPartitions.Parson.Copy
import DynamicPartitions.Parson.Dotted
import DynamicPartitions.Parson.Containers
